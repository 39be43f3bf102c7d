import WireCodec.Wire.Filling

/-!
# Map coordinates
-/

namespace WireCodec.Game

/-- A map cell coordinate. -/
structure Point where
  x : Int16 := 0
  y : Int16 := 0
  deriving DecidableEq, Repr

namespace Point

/-- The id under which a point travels where the type is open. -/
def typeId : UInt16 := 10

def reset (p : Point) : Point := { p with x := 0, y := 0 }

def write (p : Point) : WriteM Unit := do
  writeShort p.x
  writeShort p.y

def fill : FillM Point Unit := do
  .assign (fun p x => { p with x }) readShort
  .assign (fun p y => { p with y }) readShort

end Point

end WireCodec.Game
