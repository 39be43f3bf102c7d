/-!
# Primitive field types

The primitive types that a schema may give to a field, and the types of the generated code that
hold their values.
-/

namespace WireCodec

/-- A type of the generated code that a wire method can take. -/
inductive NativeType
  | bool
  | i8
  | i16
  | i32
  | i64
  | u16
  | u32
  | u64
  | f32
  | f64
  | text
  deriving DecidableEq, Repr

/-- How the generated code spells a native type. -/
def NativeType.spelling : NativeType → String
  | bool => "bool"
  | i8 => "i8"
  | i16 => "i16"
  | i32 => "i32"
  | i64 => "i64"
  | u16 => "u16"
  | u32 => "u32"
  | u64 => "u64"
  | f32 => "f32"
  | f64 => "f64"
  | text => "String"

/-- The kinds of values; a field is carried only by a method of its own kind. -/
inductive ValueKind
  | bool
  | numeric
  | text
  deriving DecidableEq, Repr

/-- A primitive type of the schema. -/
inductive Primitive
  | int
  | uint
  | number
  | string
  | boolean
  deriving DecidableEq, Repr

namespace Primitive

def all : List Primitive := [int, uint, number, string, boolean]

/-- The name of the type in a schema. -/
def tag : Primitive → String
  | int => "int"
  | uint => "uint"
  | number => "Number"
  | string => "String"
  | boolean => "Boolean"

/-- The primitive type of a name; any other name is that of a custom type. -/
def ofTag? (tag : String) : Option Primitive := all.find? (·.tag == tag)

/-- The type with which a field is declared. -/
def native : Primitive → NativeType
  | int => .i32
  | uint => .u32
  | number => .f64
  | string => .text
  | boolean => .bool

/-- The expression of the default value. -/
def defaultExpr : Primitive → String
  | int => "0"
  | uint => "0"
  | number => "0.0"
  | string => "String::new()"
  | boolean => "false"

def kind : Primitive → ValueKind
  | int => .numeric
  | uint => .numeric
  | number => .numeric
  | string => .text
  | boolean => .bool

end Primitive

end WireCodec
