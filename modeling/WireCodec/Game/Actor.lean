import WireCodec.Wire.Filling
import WireCodec.Wire.Varint

/-!
# Actors

What stands on the map. A character and a monster extend an actor: the actor's fields come first on
the wire.
-/

namespace WireCodec.Game

/-- Anything that stands on the map. -/
structure ActorInformation where
  contextualId : Binary64 := {}
  deriving DecidableEq, Repr

namespace ActorInformation

/-- The id under which an actor travels where the type is open. -/
def typeId : UInt16 := 20

def reset (a : ActorInformation) : ActorInformation := { a with contextualId := {} }

def write (a : ActorInformation) : WriteM Unit := writeDouble a.contextualId

def fill : FillM ActorInformation Unit :=
  .assign (fun a contextualId => { a with contextualId }) readDouble

end ActorInformation

/-- An actor with a name and a level. -/
structure CharacterInformation where
  base : ActorInformation := {}
  name : String := ""
  level : UInt16 := 0
  deriving DecidableEq, Repr

namespace CharacterInformation

/-- The id under which a character travels where the type is open. -/
def typeId : UInt16 := 21

def reset (c : CharacterInformation) : CharacterInformation :=
  { c with base := c.base.reset, name := "", level := 0 }

def write (c : CharacterInformation) : WriteM Unit := do
  c.base.write
  writeUtf c.name
  writeVarUnsignedShort c.level

def fill : FillM CharacterInformation Unit := do
  .within base (fun c base => { c with base }) ActorInformation.fill
  .assign (fun c name => { c with name }) readUtf
  .assign (fun c level => { c with level }) readVarUnsignedShort

end CharacterInformation

/-- An actor of a given kind of creature. -/
structure MonsterInformation where
  base : ActorInformation := {}
  creatureId : Int32 := 0
  deriving DecidableEq, Repr

namespace MonsterInformation

/-- The id under which a monster travels where the type is open. -/
def typeId : UInt16 := 22

def reset (m : MonsterInformation) : MonsterInformation :=
  { m with base := m.base.reset, creatureId := 0 }

def write (m : MonsterInformation) : WriteM Unit := do
  m.base.write
  writeVarInt m.creatureId

def fill : FillM MonsterInformation Unit := do
  .within base (fun m base => { m with base }) ActorInformation.fill
  .assign (fun m creatureId => { m with creatureId }) readVarInt

end MonsterInformation

end WireCodec.Game
