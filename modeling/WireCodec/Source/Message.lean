import WireCodec.Naming.Path
import WireCodec.Program.Basic
import WireCodec.Source.Line

/-!
# The module of a message

The layout and the programs of a message as a Rust module: imports, the struct, its default value,
its id, and the bodies that run the programs.
-/

namespace WireCodec.Source

/-! ## Types and expressions -/

/-- The declared type of a field. -/
def typeText : FieldType → String
  | .primitive p => p.native.spelling
  | .custom t => t.name
  | .polymorphic _ => "Box<dyn ProtocolType>"
  | .sequence element => "Vec<" ++ typeText element ++ ">"

/-- The expression of a field's initial value. -/
def initialText : Initial → String
  | .default p => p.defaultExpr
  | .newInstance t => t.name ++ "::default()"
  | .boxedInstance t => "Box::new(" ++ t.name ++ "::default())"
  | .emptySequence => "Vec::new()"

/-- A value cast to what its method takes. -/
def castText (value : String) (method : Method) (p : Primitive) : String :=
  match method.castFor p with
  | some type => value ++ " as " ++ type.spelling
  | none => value

/-- The argument of a writer for a place that holds a value: strings are borrowed. -/
def placeText (place : String) (method : Method) (p : Primitive) : String :=
  if p = .string then "&" ++ place else castText place method p

/-- The argument of a writer for a reference to a value: other values than strings are copied. -/
def referenceText (reference : String) (method : Method) (p : Primitive) : String :=
  if p = .string then reference else castText ("*" ++ reference) method p

/-- The call of a reader, cast to the type of the field. -/
def readText (method : Method) (p : Primitive) : String :=
  let call := "reader." ++ method.reader ++ "()?"
  if (method.castFor p).isSome then call ++ " as " ++ p.native.spelling else call

/-! ## Statements -/

/-- The place of a field. -/
def fieldText (field : String) : String := "self." ++ field

/-- The statements of an operation that resets. -/
def resetLines : Op → List Line
  | .delegateParent => [.outer (fieldText baseField ++ ".reset();")]
  | .resetFlag field => [.outer (fieldText field ++ " = false;")]
  | .resetField field initial => [.outer (fieldText field ++ " = " ++ initialText initial ++ ";")]
  | _ => []

/-- A loop over the elements of a field, behind the count. -/
def writeLoop (field : String) (body : List Line) : List Line :=
  .outer ("writer.write_count(" ++ fieldText field ++ ".len())?;") ::
    block ("for e in &" ++ fieldText field ++ " \x7b") body "\x7d"

/-- The statements of an operation that writes. -/
def writeLines : Op → List Line
  | .delegateParent => [.outer (fieldText baseField ++ ".serialize(writer)?;")]
  | .writeFlag field bit =>
    [.outer ("writer.write_flag(" ++ toString bit ++ ", " ++ fieldText field ++ ")?;")]
  | .writePrimitive field method p =>
    [.outer ("writer." ++ method.writer ++ "(" ++ placeText (fieldText field) method p ++ ")?;")]
  | .writeObject field => [.outer (fieldText field ++ ".serialize(writer)?;")]
  | .writeTypedObject field =>
    [.outer ("writer.write_unsigned_short(" ++ fieldText field ++ ".protocol_type_id())?;"),
      .outer (fieldText field ++ ".serialize(writer)?;")]
  | .writePrimitiveVector field method p =>
    writeLoop field
      [.outer ("writer." ++ method.writer ++ "(" ++ referenceText "e" method p ++ ")?;")]
  | .writeObjectVector field isOpen =>
    writeLoop field
      ((if isOpen then [.outer "writer.write_unsigned_short(e.protocol_type_id())?;"] else []) ++
        [.outer "e.serialize(writer)?;"])
  | _ => []

/-- A loop that runs as often as the count says. -/
def readLoop (body : List Line) : List Line :=
  block "for _ in 0..reader.read_count()? \x7b" body "\x7d"

/-- The statements of an operation that reads. -/
def readLines : Op → List Line
  | .delegateParent => [.outer (fieldText baseField ++ ".deserialize(reader, types)?;")]
  | .readFlag field bit =>
    [.outer (fieldText field ++ " = reader.read_flag(" ++ toString bit ++ ")?;")]
  | .readPrimitive field method p => [.outer (fieldText field ++ " = " ++ readText method p ++ ";")]
  | .readObject field t =>
    [.outer (fieldText field ++ " = " ++ t.name ++ "::default();"),
      .outer (fieldText field ++ ".deserialize(reader, types)?;")]
  | .readTypedObject field =>
    [.outer (fieldText field ++ " = types.read_instance(reader)?;"),
      .outer (fieldText field ++ ".deserialize(reader, types)?;")]
  | .readPrimitiveVector field method p =>
    readLoop [.outer (fieldText field ++ ".push(" ++ readText method p ++ ");")]
  | .readObjectVector field t isOpen =>
    let element := if isOpen then "types.read_instance(reader)?" else t.name ++ "::default()"
    readLoop
      [.outer ("let mut e = " ++ element ++ ";"),
        .outer "e.deserialize(reader, types)?;",
        .outer (fieldText field ++ ".push(e);")]
  | _ => []

/-! ## Parts of the module -/

/-- The names that a module takes from the runtime crate. -/
def runtimeNames (l : Layout) : List String :=
  ["Codec", "NetworkMessage"] ++ (if l.hasOpen then ["ProtocolType"] else []) ++
    ["Reader", "Result", "TypeRegistry", "Writer"]

/-- Whether the code of a field spells the name of its custom type; an open vector's does not. -/
def namesType (name : String) (f : FieldSlot) : Bool :=
  match f.encoding with
  | .object t => t.name == name
  | .polymorphic t => t.name == name
  | .objectVector t false => t.name == name
  | _ => false

/-- The path of an import, if the code needs it. -/
def importPath (settings : Settings) (l : Layout) (i : Import) : Option String :=
  match i.kind with
  | .parent => some (settings.messagePath i.type.package i.type.name)
  | .custom =>
    if l.fields.any (namesType i.type.name) then
      some (settings.typePath i.type.package i.type.name)
    else none

/-- The line that imports a path. -/
def useLine (path : String) : Line := .outer ("use " ++ path ++ ";")

/-- The imports: of the runtime crate, and of the code that is generated beside. -/
def importLines (settings : Settings) (l : Layout) : List Line :=
  spaced
    [(runtimeNames l).map fun name => useLine (settings.runtimeCrate ++ "::" ++ name),
      (l.imports.filterMap (importPath settings l)).map useLine]

/-- The comment that says which message a struct is. -/
def titleText (m : MessageDecl) : String :=
  if m.package = "" then "/// Protocol message " ++ toString m.protocolId ++ "."
  else
    "/// `" ++ m.package ++ "." ++ m.name ++ "`, protocol message " ++ toString m.protocolId ++ "."

/-- The struct of a message. -/
def structLines (m : MessageDecl) (l : Layout) : List Line :=
  [.outer (titleText m), .outer "#[derive(Debug)]"] ++
    if l.isEmpty then [.outer ("pub struct " ++ m.name ++ " \x7b\x7d")]
    else
      block ("pub struct " ++ m.name ++ " \x7b")
        ((l.parent.toList.map fun p => .outer ("pub " ++ baseField ++ ": " ++ p.name ++ ",")) ++
          (l.flags.map fun f => .outer ("pub " ++ f.ident ++ ": bool,")) ++
          l.fields.map fun f => .outer ("pub " ++ f.ident ++ ": " ++ typeText f.type ++ ","))
        "\x7d"

/-- The default value of a message. -/
def defaultLines (m : MessageDecl) (l : Layout) : List Line :=
  let value :=
    if l.isEmpty then [.outer "Self \x7b\x7d"]
    else
      block "Self \x7b"
        ((l.parent.toList.map fun p => .outer (baseField ++ ": " ++ p.name ++ "::default(),")) ++
          (l.flags.map fun f => .outer (f.ident ++ ": false,")) ++
          l.fields.map fun f => .outer (f.ident ++ ": " ++ initialText f.initial ++ ","))
        "\x7d"
  block ("impl Default for " ++ m.name ++ " \x7b") (block "fn default() -> Self \x7b" value "\x7d")
    "\x7d"

/-- Whether a program does nothing. -/
def isIdle (ops : List Op) : Bool := ops.all (· = .nop)

/-- The function that resets. -/
def resetFunction (ops : List Op) : List Line :=
  if isIdle ops then [.outer "fn reset(&mut self) \x7b\x7d"]
  else block "fn reset(&mut self) \x7b" (ops.flatMap resetLines) "\x7d"

/-- The function that writes. -/
def serializeFunction (ops : List Op) : List Line :=
  let writer := if isIdle ops then "_writer" else "writer"
  block ("fn serialize(&self, " ++ writer ++ ": &mut Writer) -> Result<()> \x7b")
    (ops.flatMap writeLines ++ [.outer "Ok(())"]) "\x7d"

/-- The function that reads. -/
def deserializeFunction (ops : List Op) : List Line :=
  let reader := if isIdle ops then "_reader" else "reader"
  let types := if ops.any Op.usesTypes then "types" else "_types"
  block ("fn deserialize(&mut self, " ++ reader ++ ": &mut Reader<'_>, " ++ types ++
      ": &TypeRegistry) -> Result<()> \x7b")
    (ops.flatMap readLines ++ [.outer "Ok(())"]) "\x7d"

/-- The functions that run the programs of a message. -/
def codecLines (m : MessageDecl) (p : Program) : List Line :=
  block ("impl Codec for " ++ m.name ++ " \x7b")
    (spaced
      [resetFunction p.reset, serializeFunction p.serialize, deserializeFunction p.deserialize])
    "\x7d"

/-- The constant that holds the id of a message. -/
def idLines (m : MessageDecl) (p : Program) : List Line :=
  block ("impl " ++ m.name ++ " \x7b")
    [.outer ("pub const ID: u16 = " ++ toString p.protocolId ++ ";")] "\x7d"

/-- The functions that every message has. -/
def messageLines (m : MessageDecl) : List Line :=
  block ("impl NetworkMessage for " ++ m.name ++ " \x7b")
    (spaced
      [block "fn message_id(&self) -> u16 \x7b" [.outer "Self::ID"] "\x7d",
        block "fn as_any(&self) -> &dyn std::any::Any \x7b" [.outer "self"] "\x7d"])
    "\x7d"

/-- The module of a message. -/
def moduleLines (settings : Settings) (m : MessageDecl) (l : Layout) (p : Program) : List Line :=
  spaced
    [[.outer ("// `" ++ m.name ++ "`: generated by protogen, do not edit.")],
      importLines settings l, structLines m l, defaultLines m l, idLines m p, codecLines m p,
      messageLines m]

end WireCodec.Source
