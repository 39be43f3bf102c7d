import WireCodec.Field.Method

/-!
# Layouts

The layout of a message says what its fields become: which of them travel as flags and in which
order, and for each other field its type in the generated code, its initial value and its encoding
on the wire.
-/

namespace WireCodec

/-- A custom type or a message, referred to by name and package. -/
structure TypeRef where
  name : String
  package : String
  deriving DecidableEq, Repr

/-- What an imported name is. -/
inductive ImportKind
  | parent
  | custom
  deriving DecidableEq, Repr

/-- A type that the module of a message may have to import. -/
structure Import where
  kind : ImportKind
  type : TypeRef
  deriving DecidableEq, Repr

/-- The type with which a field is declared. -/
inductive FieldType
  | primitive (p : Primitive)
  | custom (t : TypeRef)
  /-- Any custom type; which one, the wire says. -/
  | polymorphic (t : TypeRef)
  | sequence (element : FieldType)
  deriving DecidableEq, Repr

/-- The value with which a field starts and to which it is reset. -/
inductive Initial
  | default (p : Primitive)
  | newInstance (t : TypeRef)
  | boxedInstance (t : TypeRef)
  | emptySequence
  deriving DecidableEq, Repr

/-- How a field that is no flag travels. -/
inductive Encoding
  | primitive (method : Method) (p : Primitive)
  | object (t : TypeRef)
  | polymorphic (t : TypeRef)
  | primitiveVector (method : Method) (p : Primitive)
  | objectVector (t : TypeRef) (isOpen : Bool)
  deriving DecidableEq, Repr

namespace Encoding

/-- Whether values travel behind the ids of their types. -/
def isOpen : Encoding → Bool
  | polymorphic _ => true
  | objectVector _ isOpen => isOpen
  | _ => false

/-- The custom type of the values. -/
def customType : Encoding → Option TypeRef
  | object t => some t
  | polymorphic t => some t
  | objectVector t _ => some t
  | _ => none

end Encoding

/-- A flag and its bit. -/
structure FlagSlot where
  name : String
  ident : String
  position : UInt32
  bit : UInt8
  deriving DecidableEq, Repr

/-- A field that is no flag. -/
structure FieldSlot where
  name : String
  ident : String
  type : FieldType
  isCustom : Bool
  initial : Initial
  encoding : Encoding
  deriving DecidableEq, Repr

/-- What the fields of a message become. -/
structure Layout where
  parent : Option TypeRef
  flags : List FlagSlot
  fields : List FieldSlot
  imports : List Import
  deriving DecidableEq, Repr

namespace Layout

/-- Whether some field holds values of open type. -/
def hasOpen (l : Layout) : Bool := l.fields.any (·.encoding.isOpen)

/-- Whether there is nothing to hold: no parent, no flag and no field. -/
def isEmpty (l : Layout) : Bool := l.parent.isNone && l.flags.isEmpty && l.fields.isEmpty

end Layout

end WireCodec
