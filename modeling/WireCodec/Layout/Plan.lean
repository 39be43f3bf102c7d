import WireCodec.Layout.Ancestors
import WireCodec.Layout.Basic
import WireCodec.Naming.Identifier

/-!
# Planning layouts

A message is laid out against its schema. Flags are ordered by position, ties in the author's order;
the other fields keep the author's order. The identifiers of all fields, and the type names that the
module of the message uses, must not collide.
-/

namespace WireCodec

/-- The identifier of the field that holds the parent. -/
def baseField : String := "base"

/-- The names that the module of a message uses for something else. -/
def reservedNames : List String :=
  ["Codec", "NetworkMessage", "ProtocolType", "Reader", "Result", "TypeRegistry", "Writer",
    "Box", "Default", "Ok", "Self", "String", "Vec"]

namespace Layout

/-- Lays out a flag of the message `message`. -/
def flagSlot (message : String) (f : FieldDecl) : Except SchemaError FlagSlot :=
  if Primitive.ofTag? f.typeName ≠ some .boolean then
    .error (.invalidFlagField message f.name .notBoolean)
  else if f.isVector then .error (.invalidFlagField message f.name .isVector)
  else
    match f.flagPosition with
    | none => .error (.invalidFlagField message f.name .noPosition)
    | some position =>
      .ok { name := f.name, ident := identifier f.name, position, bit := (position % 8).toUInt8 }

/-- The write method of a field of a primitive type. -/
def writeMethod (message : String) (f : FieldDecl) (p : Primitive) : Except SchemaError Method :=
  match f.writeMethod with
  | none => .error (.missingWriteMethod message f.name)
  | some name =>
    match Method.ofName? name with
    | none => .error (.unknownWriteMethod message f.name name)
    | some method =>
      if method.accepts p then .ok method
      else .error (.incompatibleWriteMethod message f.name name p.tag)

/-- A field of a primitive type. -/
def primitiveSlot (f : FieldDecl) (method : Method) (p : Primitive) : FieldSlot :=
  if f.isVector then
    { name := f.name, ident := identifier f.name, isCustom := false
      type := .sequence (.primitive p), initial := .emptySequence
      encoding := .primitiveVector method p }
  else
    { name := f.name, ident := identifier f.name, isCustom := false
      type := .primitive p, initial := .default p, encoding := .primitive method p }

/-- A field of a custom type. -/
def customSlot (f : FieldDecl) (t : TypeRef) : FieldSlot :=
  let element : FieldType := if f.isOpen then .polymorphic t else .custom t
  if f.isVector then
    { name := f.name, ident := identifier f.name, isCustom := true
      type := .sequence element, initial := .emptySequence, encoding := .objectVector t f.isOpen }
  else if f.isOpen then
    { name := f.name, ident := identifier f.name, isCustom := true
      type := element, initial := .boxedInstance t, encoding := .polymorphic t }
  else
    { name := f.name, ident := identifier f.name, isCustom := true
      type := element, initial := .newInstance t, encoding := .object t }

/-- Lays out a field that is no flag. -/
def fieldSlot (s : Schema) (message : String) (f : FieldDecl) : Except SchemaError FieldSlot :=
  match Primitive.ofTag? f.typeName with
  | some p =>
    if f.isOpen then .error (.invalidPolymorphicField message f.name f.typeName)
    else (primitiveSlot f · p) <$> writeMethod message f p
  | none =>
    match s.type? f.typeName with
    | none => .error (.unresolvedType message f.name f.typeName)
    | some t => .ok (customSlot f ⟨t.name, t.package⟩)

/-- Lays out fields one by one, each claiming an identifier that is not taken. The result has the
slots and the identifiers taken in the end. -/
def claimEach {α : Type} (message : String) (lay : FieldDecl → Except SchemaError α)
    (ident : α → String) (taken : List String) :
    List FieldDecl → Except SchemaError (List α × List String)
  | [] => .ok ([], taken)
  | f :: fs => do
    let slot ← lay f
    if ident slot ∈ taken then throw (.duplicateField message (ident slot))
    let (slots, taken) ← claimEach message lay ident (ident slot :: taken) fs
    return (slot :: slots, taken)

/-- The first type of each name. -/
def firstOfEachName : List TypeRef → List TypeRef
  | [] => []
  | t :: ts => t :: (firstOfEachName ts).filter (·.name ≠ t.name)

/-- The parent, and each custom type of a field at its first use. -/
def importsOf (parent : Option TypeRef) (fields : List FieldSlot) : List Import :=
  parent.toList.map (⟨.parent, ·⟩) ++
    (firstOfEachName (fields.filterMap (·.encoding.customType))).map (⟨.custom, ·⟩)

/-- The first name that is taken or repeats an earlier one. -/
def firstClash? (taken : List String) : List String → Option String
  | [] => none
  | name :: names => if name ∈ taken then some name else firstClash? (name :: taken) names

/-- Lays out a message. -/
def plan (s : Schema) (m : MessageDecl) : Except SchemaError Layout := do
  if m.name ∈ reservedNames then throw (.typeNameClash m.name m.name)
  let parent := (← s.ancestors m).head?.map fun p => ⟨p.name, p.package⟩
  let (flagFields, otherFields) := m.fields.partition (·.isFlag)
  let taken := if parent.isSome then [baseField] else []
  let (flags, taken) ← claimEach m.name (flagSlot m.name) FlagSlot.ident taken flagFields
  let (fields, _) ← claimEach m.name (fieldSlot s m.name) FieldSlot.ident taken otherFields
  let imports := importsOf parent fields
  match firstClash? (m.name :: reservedNames) (imports.map (·.type.name)) with
  | some name => throw (.typeNameClash m.name name)
  | none =>
    return { parent, flags := flags.mergeSort (·.position ≤ ·.position), fields, imports }

end Layout

end WireCodec
