/-!
# Binary floating-point formats

A format is given by the widths of its exponent and fraction fields; a float is the natural number
spelled by its bits, sign first. `decode` gives the significand and the exponent of a magnitude, and
`round` the magnitude nearest to `m * 2 ^ e`, a tie going to the even one. All arithmetic is exact.
-/

namespace WireCodec

/-- The widths of the exponent and the fraction of a binary interchange format. -/
structure FloatFormat where
  exponentBits : Nat
  fractionBits : Nat
  deriving DecidableEq, Repr

/-- `n / 2 ^ s` rounded to the nearest whole number, a tie to the even one. -/
def shiftRightToEven (n s : Nat) : Nat :=
  let unit := 1 <<< s
  let quotient := n / unit
  let twice := 2 * (n % unit)
  if unit < twice ∨ (twice = unit ∧ quotient % 2 = 1) then quotient + 1 else quotient

@[simp] theorem shiftRightToEven_zero (n : Nat) : shiftRightToEven n 0 = n := by
  simp [shiftRightToEven, Nat.mod_one]

namespace FloatFormat

variable (f : FloatFormat)

/-- Four bytes: eight bits of exponent and twenty-three of fraction. -/
def binary32 : FloatFormat := ⟨8, 23⟩

/-- Eight bytes: eleven bits of exponent and fifty-two of fraction. -/
def binary64 : FloatFormat := ⟨11, 52⟩

/-- The weight of the sign bit. -/
def signWeight : Nat := 1 <<< (f.exponentBits + f.fractionBits)

/-- The magnitude that stands for infinity; a larger one is not a number. -/
def infinity : Nat := (1 <<< f.exponentBits - 1) <<< f.fractionBits

/-- The exponent of the least positive magnitude. -/
def leastExponent : Int := 2 - (1 <<< (f.exponentBits - 1) : Nat) - f.fractionBits

def isNegative (bits : Nat) : Bool := f.signWeight ≤ bits

/-- The bits below the sign. -/
def magnitude (bits : Nat) : Nat := bits % f.signWeight

def isNaN (bits : Nat) : Bool := f.infinity < f.magnitude bits

/-- Significand and exponent of a magnitude; infinity counts as the next power of two. -/
def decode (magnitude : Nat) : Nat × Int :=
  let field := magnitude >>> f.fractionBits
  let fraction := magnitude % 1 <<< f.fractionBits
  if field = 0 then (fraction, f.leastExponent)
  else (1 <<< f.fractionBits + fraction, f.leastExponent + (field - 1))

/-- The magnitude nearest to `m * 2 ^ e`, ties to even; infinity if that is past the largest. -/
def round (m : Nat) (e : Int) : Nat :=
  if m = 0 then 0
  else
    let last := max (m.log2 + e - f.fractionBits) f.leastExponent
    let kept :=
      if last ≤ e then m <<< (e - last).toNat else shiftRightToEven m (last - e).toNat
    min ((last - f.leastExponent).toNat <<< f.fractionBits + kept) f.infinity

/-- The float nearest to an integer, ties to even. -/
def ofInt (z : Int) : Nat :=
  (if z < 0 then f.signWeight else 0) + f.round z.natAbs 0

/-- The whole part of a float that is a number, dropping the fraction towards zero. -/
def truncate (bits : Nat) : Int :=
  let (m, e) := f.decode (f.magnitude bits)
  let whole : Nat := if 0 ≤ e then m <<< e.toNat else m >>> (-e).toNat
  if f.isNegative bits then -whole else whole

/-- The whole part clamped to the range `lo` to `hi`; zero if the float is not a number. -/
def truncateWithin (lo hi : Int) (bits : Nat) : Int :=
  if f.isNaN bits then 0 else max lo (min hi (f.truncate bits))

/-- The float of the format `g` nearest to one of the format `f`; infinities stay infinite, and any
float that is not a number becomes the same one. -/
def convert (f g : FloatFormat) (bits : Nat) : Nat :=
  let magnitude := f.magnitude bits
  let rounded :=
    if magnitude < f.infinity then
      let (m, e) := f.decode magnitude
      g.round m e
    else if magnitude = f.infinity then g.infinity
    else g.infinity + 1 <<< (g.fractionBits - 1)
  (if f.isNegative bits then g.signWeight else 0) + rounded

end FloatFormat

end WireCodec
