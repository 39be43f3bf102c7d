import WireCodec.Field.Primitive

/-!
# Wire methods

The methods by which the wire carries primitive values. A schema names only the method that writes;
the one that reads is its partner.
-/

namespace WireCodec

/-- A method of the wire. -/
inductive Method
  | boolean
  | byte
  | short
  | int
  | unsignedInt
  | float
  | double
  | utf
  | varInt
  | varUnsignedInt
  | varShort
  | varUnsignedShort
  | varLong
  | varUnsignedLong
  deriving DecidableEq, Repr

namespace Method

def all : List Method :=
  [boolean, byte, short, int, unsignedInt, float, double, utf, varInt, varUnsignedInt, varShort,
    varUnsignedShort, varLong, varUnsignedLong]

/-- What the schema names of a method's two directions have in common. -/
def word : Method → String
  | boolean => "Boolean"
  | byte => "Byte"
  | short => "Short"
  | int => "Int"
  | unsignedInt => "UnsignedInt"
  | float => "Float"
  | double => "Double"
  | utf => "UTF"
  | varInt => "VarInt"
  | varUnsignedInt => "VarUhInt"
  | varShort => "VarShort"
  | varUnsignedShort => "VarUhShort"
  | varLong => "VarLong"
  | varUnsignedLong => "VarUhLong"

/-- What the functions of a method's two directions have in common. -/
def stem : Method → String
  | boolean => "boolean"
  | byte => "byte"
  | short => "short"
  | int => "int"
  | unsignedInt => "unsigned_int"
  | float => "float"
  | double => "double"
  | utf => "utf"
  | varInt => "var_int"
  | varUnsignedInt => "var_uh_int"
  | varShort => "var_short"
  | varUnsignedShort => "var_uh_short"
  | varLong => "var_long"
  | varUnsignedLong => "var_uh_long"

/-- The name of the method in a schema. -/
def name (m : Method) : String := "write" ++ m.word

/-- The schema name of the partner that reads. -/
def readName (m : Method) : String := "read" ++ m.word

/-- The function of a writer. -/
def writer (m : Method) : String := "write_" ++ m.stem

/-- The function of a reader. -/
def reader (m : Method) : String := "read_" ++ m.stem

/-- The method of a schema name. -/
def ofName? (name : String) : Option Method := all.find? (·.name == name)

/-- The type that the writer takes and the reader returns. -/
def native : Method → NativeType
  | boolean => .bool
  | byte => .i8
  | short => .i16
  | int => .i32
  | unsignedInt => .u32
  | float => .f32
  | double => .f64
  | utf => .text
  | varInt => .i32
  | varUnsignedInt => .u32
  | varShort => .i16
  | varUnsignedShort => .u16
  | varLong => .i64
  | varUnsignedLong => .u64

def kind (m : Method) : ValueKind :=
  match m.native with
  | .bool => .bool
  | .text => .text
  | _ => .numeric

/-- Whether the method may carry a field of the given type. -/
def accepts (m : Method) (p : Primitive) : Bool := m.kind == p.kind

/-- The type to which a value is cast before it is written, unless it has that type already. -/
def castFor (m : Method) (p : Primitive) : Option NativeType :=
  if m.native = p.native then none else some m.native

end Method

end WireCodec
