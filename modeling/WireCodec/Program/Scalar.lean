import WireCodec.Field.Method
import WireCodec.Wire.Item

/-!
# Scalars

The values of primitive fields, and the casts by which a wire method carries them: a value is cast
to what the method takes before it is written, and what is read is cast back. Integers keep their
low bits; floats lose their fraction and are clamped to the integer type, with zero for a NaN;
integers become the nearest float.
-/

namespace WireCodec

/-- The value of a primitive field. -/
inductive Scalar
  | int (v : Int32)
  | uint (v : UInt32)
  | number (v : Binary64)
  | text (v : String)
  | boolean (v : Bool)
  deriving DecidableEq, Repr

namespace Scalar

/-- The type of the value. -/
def primitive : Scalar → Primitive
  | int _ => .int
  | uint _ => .uint
  | number _ => .number
  | text _ => .string
  | boolean _ => .boolean

/-- The default value of a type. -/
def ofPrimitive : Primitive → Scalar
  | .int => int 0
  | .uint => uint 0
  | .number => number {}
  | .string => text ""
  | .boolean => boolean false

/-- The value as an integer; floats are clamped to the range. -/
def toInt (lo hi : Int) : Scalar → Int
  | int v => v.toInt
  | uint v => v.toNat
  | number v => v.truncateWithin lo hi
  | text _ => 0
  | boolean _ => 0

def toBinary32 : Scalar → Binary32
  | number v => v.toBinary32
  | v => .ofInt (v.toInt 0 0)

def toBinary64 : Scalar → Binary64
  | number v => v
  | v => .ofInt (v.toInt 0 0)

def toText : Scalar → String
  | text v => v
  | _ => ""

def toBoolean : Scalar → Bool
  | boolean v => v
  | _ => false

end Scalar

namespace Item

/-- The value as an integer; floats are clamped to the range. -/
def toInt (lo hi : Int) : Item → Int
  | byte v => v.toInt
  | short v => v.toInt
  | int v => v.toInt
  | unsignedInt v => v.toNat
  | float v => v.truncateWithin lo hi
  | double v => v.truncateWithin lo hi
  | varShort v => v.toInt
  | varUnsignedShort v => v.toNat
  | varInt v => v.toInt
  | varUnsignedInt v => v.toNat
  | varLong v => v.toInt
  | varUnsignedLong v => v.toNat
  | _ => 0

def toBinary64 : Item → Binary64
  | float v => v.toBinary64
  | double v => v
  | v => .ofInt (v.toInt 0 0)

def toText : Item → String
  | utf v => v
  | _ => ""

def toBoolean : Item → Bool
  | boolean v => v
  | _ => false

/-- The value cast to a primitive type. -/
def cast (v : Item) : Primitive → Scalar
  | .int => .int (.ofInt (v.toInt Int32.minValue.toInt Int32.maxValue.toInt))
  | .uint => .uint (.ofInt (v.toInt 0 (UInt32.size - 1)))
  | .number => .number v.toBinary64
  | .string => .text v.toText
  | .boolean => .boolean v.toBoolean

end Item

namespace Method

/-- A value as the method writes it. -/
def item (m : Method) (v : Scalar) : Item :=
  match m with
  | boolean => .boolean v.toBoolean
  | byte => .byte (.ofInt (v.toInt Int8.minValue.toInt Int8.maxValue.toInt))
  | short => .short (.ofInt (v.toInt Int16.minValue.toInt Int16.maxValue.toInt))
  | int => .int (.ofInt (v.toInt Int32.minValue.toInt Int32.maxValue.toInt))
  | unsignedInt => .unsignedInt (.ofInt (v.toInt 0 (UInt32.size - 1)))
  | float => .float v.toBinary32
  | double => .double v.toBinary64
  | utf => .utf v.toText
  | varInt => .varInt (.ofInt (v.toInt Int32.minValue.toInt Int32.maxValue.toInt))
  | varUnsignedInt => .varUnsignedInt (.ofInt (v.toInt 0 (UInt32.size - 1)))
  | varShort => .varShort (.ofInt (v.toInt Int16.minValue.toInt Int16.maxValue.toInt))
  | varUnsignedShort => .varUnsignedShort (.ofInt (v.toInt 0 (UInt16.size - 1)))
  | varLong => .varLong (.ofInt (v.toInt Int64.minValue.toInt Int64.maxValue.toInt))
  | varUnsignedLong => .varUnsignedLong (.ofInt (v.toInt 0 (UInt64.size - 1)))

/-- The shape of what the method reads. -/
def shape : Method → ItemShape
  | boolean => .boolean
  | byte => .byte
  | short => .short
  | int => .int
  | unsignedInt => .unsignedInt
  | float => .float
  | double => .double
  | utf => .utf
  | varInt => .varInt
  | varUnsignedInt => .varUnsignedInt
  | varShort => .varShort
  | varUnsignedShort => .varUnsignedShort
  | varLong => .varLong
  | varUnsignedLong => .varUnsignedLong

/-- An item has the shape that its method reads. -/
theorem shape_item (m : Method) (v : Scalar) : (m.item v).shape = m.shape := by
  cases m <;> rfl

/-- Writes a value, cast to what the method takes. -/
def write (m : Method) (v : Scalar) : WriteM Unit := (m.item v).write

/-- Reads a value and casts it to the type of its field. -/
def read (m : Method) (p : Primitive) : ReadM Scalar := (·.cast p) <$> m.shape.read

end Method

end WireCodec
