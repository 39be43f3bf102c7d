/-!
# Schema errors

Every way in which a schema can fail to become code, and the sentence that reports each of them. An
error ends the run: either all of the code is produced or none.
-/

namespace WireCodec

/-- What is wrong with a flag. -/
inductive FlagDefect
  | notBoolean
  | isVector
  | noPosition
  deriving DecidableEq, Repr

def FlagDefect.reason : FlagDefect → String
  | notBoolean => "type is not Boolean"
  | isVector => "flags cannot be vectors"
  | noPosition => "no bbwPosition"

/-- A cause of failure. -/
inductive SchemaError
  /-- The text is not JSON, or not JSON of the shape of a schema. -/
  | malformed
  /-- A message names a parent that is no message of the schema. -/
  | unresolvedParent (message parent : String)
  /-- A field names a type that is neither primitive nor declared. -/
  | unresolvedType (message field typeName : String)
  /-- Two messages have one protocol id. -/
  | duplicateProtocolId (id : UInt16) (first second : String)
  /-- Two messages have one name. -/
  | duplicateMessageName (name : String)
  /-- Two messages, or a message and a module of the run's own, have one module path. -/
  | duplicateModulePath (path first second : String)
  /-- The parents of a message lead back to a message already met. -/
  | inheritanceCycle (message : String)
  /-- A primitive field has no write method. -/
  | missingWriteMethod (message field : String)
  /-- The wire has no such write method. -/
  | unknownWriteMethod (message field method : String)
  /-- The write method carries values of another kind than the field's. -/
  | incompatibleWriteMethod (message field method typeName : String)
  /-- A flag is not one boolean at a position. -/
  | invalidFlagField (message field : String) (defect : FlagDefect)
  /-- A primitive field is marked as of open type. -/
  | invalidPolymorphicField (message field typeName : String)
  /-- Two fields of a message have one identifier. -/
  | duplicateField (message field : String)
  /-- A type name means something else already in the module of a message. -/
  | typeNameClash (message typeName : String)
  deriving DecidableEq, Repr

namespace SchemaError

/-- The sentence that reports an error. -/
def message : SchemaError → String
  | malformed => "invalid schema: "
  | unresolvedParent message parent => s!"{message}: parent message `{parent}` not found"
  | unresolvedType message field typeName => s!"{message}.{field}: type `{typeName}` not found"
  | duplicateProtocolId id first second => s!"protocol id {id} used by both {first} and {second}"
  | duplicateMessageName name => s!"message `{name}` declared twice"
  | duplicateModulePath path first second =>
    s!"module `{path}` generated for both {first} and {second}"
  | inheritanceCycle message => s!"{message}: parent chain is cyclic"
  | missingWriteMethod message field => s!"{message}.{field}: primitive field has no write method"
  | unknownWriteMethod message field method =>
    s!"{message}.{field}: unknown write method `{method}`"
  | incompatibleWriteMethod message field method typeName =>
    s!"{message}.{field}: `{method}` cannot carry a `{typeName}`"
  | invalidFlagField message field defect =>
    s!"{message}.{field}: invalid flag field, {defect.reason}"
  | invalidPolymorphicField message field typeName =>
    s!"{message}.{field}: primitive `{typeName}` cannot be resolved by type id"
  | duplicateField message field => s!"{message}: field `{field}` collides with another field"
  | typeNameClash message typeName =>
    s!"{message}: type name `{typeName}` clashes with a name already in scope"

end SchemaError

end WireCodec
