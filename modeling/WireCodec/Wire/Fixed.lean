import WireCodec.Number.Binary
import WireCodec.Wire.BigEndian
import WireCodec.Wire.Buffer
import WireCodec.Wire.Cursor

/-!
# Scalars of fixed width

Booleans, integers and floats of one, two, four and eight bytes. Signed integers travel in two's
complement and floats as their bits, the high byte first. Any nonzero byte reads as `true`.
-/

namespace WireCodec

/-! ## Writing -/

def writeBoolean (v : Bool) : WriteM Unit := put [if v then 1 else 0]

def writeUnsignedByte (v : UInt8) : WriteM Unit := put [v]

def writeByte (v : Int8) : WriteM Unit := writeUnsignedByte v.toUInt8

def writeUnsignedShort (v : UInt16) : WriteM Unit := put (bigEndian 2 v.toNat)

def writeShort (v : Int16) : WriteM Unit := writeUnsignedShort v.toUInt16

def writeUnsignedInt (v : UInt32) : WriteM Unit := put (bigEndian 4 v.toNat)

def writeInt (v : Int32) : WriteM Unit := writeUnsignedInt v.toUInt32

def writeFloat (v : Binary32) : WriteM Unit := writeUnsignedInt v.bits

def writeDouble (v : Binary64) : WriteM Unit := put (bigEndian 8 v.bits.toNat)

/-! ## Reading -/

/-- The number spelled by the next `k` bytes. -/
def takeNat (k : Nat) : ReadM Nat := ofBigEndian <$> take k

def readUnsignedByte : ReadM UInt8 := takeByte

def readByte : ReadM Int8 := UInt8.toInt8 <$> readUnsignedByte

def readBoolean : ReadM Bool := (· != 0) <$> readUnsignedByte

def readUnsignedShort : ReadM UInt16 := UInt16.ofNat <$> takeNat 2

def readShort : ReadM Int16 := UInt16.toInt16 <$> readUnsignedShort

def readUnsignedInt : ReadM UInt32 := UInt32.ofNat <$> takeNat 4

def readInt : ReadM Int32 := UInt32.toInt32 <$> readUnsignedInt

def readFloat : ReadM Binary32 := Binary32.mk <$> readUnsignedInt

def readDouble : ReadM Binary64 := (fun n => ⟨.ofNat n⟩) <$> takeNat 8

end WireCodec
