import WireCodec.Wire.FlagByte
import WireCodec.Wire.Text
import WireCodec.Wire.Varint

/-!
# Wire items

An item is a value together with the encoding that carries it; its shape is what a reader has to
know beforehand, since nothing on the wire is tagged. `Item.write` writes an item and
`ItemShape.read` reads an item of a given shape.
-/

namespace WireCodec

/-- A value and its encoding. -/
inductive Item
  | boolean (v : Bool)
  | byte (v : Int8)
  | unsignedByte (v : UInt8)
  | short (v : Int16)
  | unsignedShort (v : UInt16)
  | int (v : Int32)
  | unsignedInt (v : UInt32)
  | float (v : Binary32)
  | double (v : Binary64)
  | varShort (v : Int16)
  | varUnsignedShort (v : UInt16)
  | varInt (v : Int32)
  | varUnsignedInt (v : UInt32)
  | varLong (v : Int64)
  | varUnsignedLong (v : UInt64)
  | utf (s : String)
  | bytes (xs : List UInt8)
  | count (n : Nat)
  | flag (bit : UInt8) (v : Bool)
  deriving DecidableEq, Repr

/-- What a reader has to know about an item: its encoding, and how many bytes or which bit. -/
inductive ItemShape
  | boolean
  | byte
  | unsignedByte
  | short
  | unsignedShort
  | int
  | unsignedInt
  | float
  | double
  | varShort
  | varUnsignedShort
  | varInt
  | varUnsignedInt
  | varLong
  | varUnsignedLong
  | utf
  | bytes (n : Nat)
  | count
  | flag (bit : UInt8)
  deriving DecidableEq, Repr

namespace Item

def write : Item → WriteM Unit
  | boolean v => writeBoolean v
  | byte v => writeByte v
  | unsignedByte v => writeUnsignedByte v
  | short v => writeShort v
  | unsignedShort v => writeUnsignedShort v
  | int v => writeInt v
  | unsignedInt v => writeUnsignedInt v
  | float v => writeFloat v
  | double v => writeDouble v
  | varShort v => writeVarShort v
  | varUnsignedShort v => writeVarUnsignedShort v
  | varInt v => writeVarInt v
  | varUnsignedInt v => writeVarUnsignedInt v
  | varLong v => writeVarLong v
  | varUnsignedLong v => writeVarUnsignedLong v
  | utf s => writeUtf s
  | bytes xs => put xs
  | count n => writeCount n
  | flag bit v => writeFlag bit v

/-- The shape under which an item is read back. -/
def shape : Item → ItemShape
  | boolean _ => .boolean
  | byte _ => .byte
  | unsignedByte _ => .unsignedByte
  | short _ => .short
  | unsignedShort _ => .unsignedShort
  | int _ => .int
  | unsignedInt _ => .unsignedInt
  | float _ => .float
  | double _ => .double
  | varShort _ => .varShort
  | varUnsignedShort _ => .varUnsignedShort
  | varInt _ => .varInt
  | varUnsignedInt _ => .varUnsignedInt
  | varLong _ => .varLong
  | varUnsignedLong _ => .varUnsignedLong
  | utf _ => .utf
  | bytes xs => .bytes xs.length
  | count _ => .count
  | flag bit _ => .flag bit

end Item

namespace ItemShape

def read : ItemShape → ReadM Item
  | boolean => .boolean <$> readBoolean
  | byte => .byte <$> readByte
  | unsignedByte => .unsignedByte <$> readUnsignedByte
  | short => .short <$> readShort
  | unsignedShort => .unsignedShort <$> readUnsignedShort
  | int => .int <$> readInt
  | unsignedInt => .unsignedInt <$> readUnsignedInt
  | float => .float <$> readFloat
  | double => .double <$> readDouble
  | varShort => .varShort <$> readVarShort
  | varUnsignedShort => .varUnsignedShort <$> readVarUnsignedShort
  | varInt => .varInt <$> readVarInt
  | varUnsignedInt => .varUnsignedInt <$> readVarUnsignedInt
  | varLong => .varLong <$> readVarLong
  | varUnsignedLong => .varUnsignedLong <$> readVarUnsignedLong
  | utf => .utf <$> readUtf
  | bytes n => .bytes <$> take n
  | count => .count <$> readCount
  | flag bit => .flag bit <$> readFlag bit

end ItemShape

end WireCodec
