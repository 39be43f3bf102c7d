/-!
# Schemas

A schema declares the messages of a protocol and the custom types that their fields may have. It is
data as its author wrote it; whether it makes sense is found out when messages are laid out.
-/

namespace WireCodec

/-- A field of a message. -/
structure FieldDecl where
  name : String
  typeName : String
  isVector : Bool := false
  /-- The concrete type of the value travels with it. -/
  isOpen : Bool := false
  isFlag : Bool := false
  flagPosition : Option UInt32 := none
  writeMethod : Option String := none
  deriving DecidableEq, Repr

/-- A message, its fields in the author's order. -/
structure MessageDecl where
  name : String
  package : String := ""
  protocolId : UInt16
  parent : Option String := none
  fields : List FieldDecl := []
  deriving DecidableEq, Repr

/-- A custom type. -/
structure TypeDecl where
  name : String
  package : String := ""
  deriving DecidableEq, Repr

/-- The declarations of a protocol. -/
structure Schema where
  messages : List MessageDecl := []
  types : List TypeDecl := []
  deriving DecidableEq, Repr

namespace FieldDecl

/-- A field of a primitive type, carried by a method. -/
def primitive (name typeName writeMethod : String) : FieldDecl :=
  { name, typeName, writeMethod := some writeMethod }

/-- A field of a custom type. -/
def object (name typeName : String) : FieldDecl := { name, typeName }

/-- A flag at a position. -/
def flag (name : String) (position : UInt32) : FieldDecl :=
  { name, typeName := "Boolean", isFlag := true, flagPosition := some position }

/-- The field as a vector of such fields. -/
def vector (f : FieldDecl) : FieldDecl := { f with isVector := true }

/-- The field with its type left open. -/
def polymorphic (f : FieldDecl) : FieldDecl := { f with isOpen := true }

end FieldDecl

namespace MessageDecl

/-- The name of the parent; an empty one stands for none. -/
def parentName (m : MessageDecl) : Option String := m.parent.filter (· ≠ "")

end MessageDecl

namespace Schema

/-- The first message of a name. -/
def message? (s : Schema) (name : String) : Option MessageDecl := s.messages.find? (·.name = name)

/-- The first custom type of a name. -/
def type? (s : Schema) (name : String) : Option TypeDecl := s.types.find? (·.name = name)

end Schema

end WireCodec
