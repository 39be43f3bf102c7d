import WireCodec.Dispatch.TypeTable
import WireCodec.Game.Actor
import WireCodec.Game.Point

/-!
# Values of an open type

A field may admit a value of any of the value types. Such a value travels behind the id of its own
type.
-/

namespace WireCodec.Game

/-- The value types. -/
inductive EntityKind
  | point
  | actor
  | character
  | monster
  deriving DecidableEq, Repr

/-- A value of any of the value types. -/
inductive Entity
  | point (v : Point)
  | actor (v : ActorInformation)
  | character (v : CharacterInformation)
  | monster (v : MonsterInformation)
  deriving DecidableEq, Repr

namespace EntityKind

def all : List EntityKind := [point, actor, character, monster]

/-- The name of the type. -/
def name : EntityKind → String
  | point => "Point"
  | actor => "ActorInformation"
  | character => "CharacterInformation"
  | monster => "MonsterInformation"

/-- The value type of a name. -/
def ofName? (name : String) : Option EntityKind := all.find? (·.name == name)

/-- The id that a value of the type reports. -/
def typeId : EntityKind → UInt16
  | point => Point.typeId
  | actor => ActorInformation.typeId
  | character => CharacterInformation.typeId
  | monster => MonsterInformation.typeId

/-- The default value of the type. -/
def fresh : EntityKind → Entity
  | point => .point {}
  | actor => .actor {}
  | character => .character {}
  | monster => .monster {}

end EntityKind

namespace Entity

def kind : Entity → EntityKind
  | point _ => .point
  | actor _ => .actor
  | character _ => .character
  | monster _ => .monster

/-- The id written before the value where its type is open. -/
def typeId (e : Entity) : UInt16 := e.kind.typeId

def reset : Entity → Entity
  | point v => .point v.reset
  | actor v => .actor v.reset
  | character v => .character v.reset
  | monster v => .monster v.reset

def write : Entity → WriteM Unit
  | point v => v.write
  | actor v => v.write
  | character v => v.write
  | monster v => v.write

/-- Writes the value behind the id of its type. -/
def writeTyped (e : Entity) : WriteM Unit := do
  writeUnsignedShort e.typeId
  e.write

/-- Fills a value of whichever type it has. -/
def fill : FillM Entity Unit := fun s =>
  match s.value with
  | point v => FillM.inside point v Point.fill s
  | actor v => FillM.inside actor v ActorInformation.fill s
  | character v => FillM.inside character v CharacterInformation.fill s
  | monster v => FillM.inside monster v MonsterInformation.fill s

/-- Every value type under the id that its values report. -/
def types : TypeTable Entity := ⟨EntityKind.all.map fun k => (k.typeId, k.fresh), by decide⟩

theorem ofEntries_types_entries : TypeTable.ofEntries types.entries = .ok types := rfl

end Entity

end WireCodec.Game
