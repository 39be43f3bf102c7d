import WireCodec.Game.Entity
import WireCodec.Wire.Sequence

/-!
# The message of actors

A message with a field of every encoding: a point, a value of open type, sequences of both and of
strings, and numbers that are carried by narrower ones.
-/

namespace WireCodec.Game

/-- The actors on a map. -/
structure ActorsMessage where
  origin : Point := {}
  actor : Entity := .actor {}
  actors : Array Entity := #[]
  path : Array Point := #[]
  names : Array String := #[]
  label : String := ""
  kamas : Binary64 := {}
  cellId : Int32 := 0
  mapId : Binary64 := {}
  type : Int32 := 0
  deriving DecidableEq, Repr

namespace ActorsMessage

def reset (m : ActorsMessage) : ActorsMessage :=
  { m with
    origin := {}, actor := .actor {}, actors := #[], path := #[], names := #[], label := "",
    kamas := {}, cellId := 0, mapId := {}, type := 0 }

/-- Values of open type travel behind their type ids, points do not. -/
def write (m : ActorsMessage) : WriteM Unit := do
  m.origin.write
  m.actor.writeTyped
  writeSequence Entity.writeTyped m.actors
  writeSequence Point.write m.path
  writeSequence writeUtf m.names
  writeUtf m.label
  writeVarLong m.kamas.toInt64
  writeVarShort m.cellId.toInt16
  writeDouble m.mapId
  writeByte m.type.toInt8

/-- A point and a value of open type are replaced before they are filled; sequences grow. -/
def fill (types : TypeTable Entity) : FillM ActorsMessage Unit := do
  .change (fun m => { m with origin := {} })
  .within origin (fun m origin => { m with origin }) Point.fill
  .assign (fun m actor => { m with actor }) types.readInstance
  .within actor (fun m actor => { m with actor }) Entity.fill
  .extend (fun m e => { m with actors := m.actors.push e }) (types.readValue Entity.fill)
  .extend (fun m p => { m with path := m.path.push p }) (FillM.fresh {} Point.fill)
  .extend (fun m name => { m with names := m.names.push name }) readUtf
  .assign (fun m label => { m with label }) readUtf
  .assign (fun m kamas => { m with kamas := .ofInt64 kamas }) readVarLong
  .assign (fun m cellId => { m with cellId := cellId.toInt32 }) readVarShort
  .assign (fun m mapId => { m with mapId }) readDouble
  .assign (fun m type => { m with type := type.toInt32 }) readByte

end ActorsMessage

end WireCodec.Game
