import WireCodec.Number.FloatFormat

/-!
# Floating-point words

The two float types of the wire, held as their bits: two floats are equal when their bits are, so a
NaN equals itself and the two zeros differ.
-/

namespace WireCodec

/-- A four-byte float. -/
structure Binary32 where
  bits : UInt32 := 0
  deriving DecidableEq, Repr

/-- An eight-byte float. -/
structure Binary64 where
  bits : UInt64 := 0
  deriving DecidableEq, Repr

namespace Binary32

def isNaN (x : Binary32) : Bool := FloatFormat.binary32.isNaN x.bits.toNat

/-- The whole part, clamped to a range; zero for a NaN. -/
def truncateWithin (lo hi : Int) (x : Binary32) : Int :=
  FloatFormat.binary32.truncateWithin lo hi x.bits.toNat

/-- The float nearest to an integer, ties to even. -/
def ofInt (z : Int) : Binary32 := ⟨.ofNat (FloatFormat.binary32.ofInt z)⟩

end Binary32

namespace Binary64

def isNaN (x : Binary64) : Bool := FloatFormat.binary64.isNaN x.bits.toNat

/-- The whole part, clamped to a range; zero for a NaN. -/
def truncateWithin (lo hi : Int) (x : Binary64) : Int :=
  FloatFormat.binary64.truncateWithin lo hi x.bits.toNat

/-- The float nearest to an integer, ties to even. -/
def ofInt (z : Int) : Binary64 := ⟨.ofNat (FloatFormat.binary64.ofInt z)⟩

/-- The whole part, clamped to the range of the integer type; zero for a NaN. -/
def toInt64 (x : Binary64) : Int64 :=
  .ofInt (x.truncateWithin Int64.minValue.toInt Int64.maxValue.toInt)

/-- The float nearest to an integer, ties to even. -/
def ofInt64 (z : Int64) : Binary64 := ofInt z.toInt

end Binary64

/-- The nearest four-byte float, ties to even. -/
def Binary64.toBinary32 (x : Binary64) : Binary32 :=
  ⟨.ofNat (FloatFormat.binary64.convert .binary32 x.bits.toNat)⟩

/-- The same number as an eight-byte float. -/
def Binary32.toBinary64 (x : Binary32) : Binary64 :=
  ⟨.ofNat (FloatFormat.binary32.convert .binary64 x.bits.toNat)⟩

end WireCodec
