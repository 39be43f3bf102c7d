import WireCodec.Wire.Fixed

/-!
# Flag bytes

A flag is a boolean that travels in a byte of its own, at a bit chosen by its position. Setting a
bit leaves the other bits of the byte; a written flag byte has no other bit set.
-/

namespace WireCodec.FlagByte

/-- The highest bit of a byte. -/
def maxBit : UInt8 := 7

/-- The byte with one bit set to `value`. -/
def set (byte bit : UInt8) (value : Bool) : Except Fault UInt8 :=
  if maxBit < bit then throw (.flagOverflow bit)
  else return if value then byte ||| (1 <<< bit) else byte &&& ~~~(1 <<< bit)

/-- One bit of the byte. -/
def get (byte bit : UInt8) : Except Fault Bool :=
  if maxBit < bit then throw (.flagOverflow bit)
  else return byte &&& (1 <<< bit) != 0

end FlagByte

def writeFlag (bit : UInt8) (value : Bool) : WriteM Unit := do
  writeUnsignedByte (← MonadExcept.ofExcept (FlagByte.set 0 bit value))

/-- The byte is read before its bit is asked for. -/
def readFlag (bit : UInt8) : ReadM Bool := do
  let byte ← readUnsignedByte
  MonadExcept.ofExcept (FlagByte.get byte bit)

end WireCodec
