import WireCodec.Proofs.Resetting
import WireCodec.Proofs.SpelledNames

/-!
# Names that the module of a message spells

Line by line, the type names in the module of a message are those of its layout (`Layout.names`):
some that every module spells, the names of the message and of its parent, and for each field the
names in its type, in its initial value and in the statements that write and read it.
-/

namespace WireCodec

/-! ## Names of layouts -/

/-- The names in the text of a type. -/
def FieldType.names : FieldType → List String
  | primitive p => [p.native.spelling]
  | custom t => [t.name]
  | polymorphic _ => ["Box", "ProtocolType"]
  | sequence element => "Vec" :: element.names

/-- The names in the expression of an initial value. -/
def Initial.names : Initial → List String
  | default p => if p = .string then ["String"] else []
  | newInstance t => [t.name]
  | boxedInstance t => ["Box", t.name]
  | emptySequence => ["Vec"]

/-- The name in a cast of a value that is written. -/
def Method.castNames (method : Method) (p : Primitive) : List String :=
  if p = .string then [] else (method.castFor p).toList.map (·.spelling)

/-- The names in the expression that reads a value. -/
def Method.readNames (method : Method) (p : Primitive) : List String :=
  if (method.castFor p).isSome then [p.native.spelling] else []

/-- The names in the statements that write a field. -/
def Encoding.writeNames : Encoding → List String
  | primitive method p => method.castNames p
  | primitiveVector method p => method.castNames p
  | _ => []

/-- The names in the statements that read a field. -/
def Encoding.readNames : Encoding → List String
  | primitive method p => method.readNames p
  | primitiveVector method p => method.readNames p
  | object t => [t.name]
  | objectVector t false => [t.name]
  | _ => []

/-- An empty layout has nothing to hold. -/
theorem Layout.eq_nil_of_isEmpty {l : Layout} (h : l.isEmpty) :
    l.parent = none ∧ l.flags = [] ∧ l.fields = [] := by
  simpa [Layout.isEmpty, and_assoc] using h

namespace Source

theorem isWord_spelling (t : NativeType) : IsWord t.spelling := by
  cases t <;> exact .literal rfl rfl

theorem isWord_stem (m : Method) : IsWord m.stem := by cases m <;> exact .literal rfl rfl

theorem isWord_writer (m : Method) : IsWord m.writer := .append (.literal rfl rfl) (isWord_stem m)

theorem isWord_reader (m : Method) : IsWord m.reader := .append (.literal rfl rfl) (isWord_stem m)

/-! ## Types and expressions -/

theorem Spells.lone {x : String} (hx : IsWord x) : Spells x.toList [x] := by
  have := Spells.name hx rfl .nil
  rwa [List.append_nil] at this

theorem spells_typeText {type : FieldType} (h : ∀ x ∈ type.names, IsWord x) :
    Spells (typeText type).toList type.names := by
  induction type with
  | primitive p => exact .lone (isWord_spelling _)
  | custom t => exact .lone (h t.name List.mem_cons_self)
  | polymorphic t =>
    have box : Spells "Box<dyn ProtocolType>".toList ["Box", "ProtocolType"] :=
      .literal "Box<dyn ProtocolType>" rfl rfl
    exact box
  | sequence element ih =>
    have vec : Spells "Vec<".toList ["Vec"] := .literal "Vec<" rfl rfl
    have inner := ih fun x hx => h x (List.mem_cons_of_mem _ hx)
    have pieces : (typeText (.sequence element)).toList =
        "Vec<".toList ++ ((typeText element).toList ++ ">".toList) := by
      simp [typeText]
    rw [pieces]
    exact (vec.append (.inl rfl) (inner.before rfl (.plain ">" rfl rfl))).congr
      (by simp [FieldType.names])

theorem spells_initialText {initial : Initial} (h : ∀ x ∈ initial.names, IsWord x) :
    Spells (initialText initial).toList initial.names := by
  cases initial with
  | default p =>
    cases p with
    | int => exact .plain "0" rfl rfl
    | uint => exact .plain "0" rfl rfl
    | number => exact .plain "0.0" rfl rfl
    | string => exact .literal "String::new()" rfl rfl
    | boolean => exact .plain "false" rfl rfl
  | newInstance t =>
    have pieces : (initialText (.newInstance t)).toList =
        t.name.toList ++ "::default()".toList := by
      simp [initialText]
    rw [pieces]
    exact .name (h t.name List.mem_cons_self) rfl (.plain "::default()" rfl rfl)
  | boxedInstance t =>
    have box : Spells "Box::new(".toList ["Box"] := .literal "Box::new(" rfl rfl
    have pieces : (initialText (.boxedInstance t)).toList =
        "Box::new(".toList ++ (t.name.toList ++ "::default())".toList) := by
      simp [initialText]
    rw [pieces]
    exact box.append (.inl rfl)
      (.name (h t.name (by simp [Initial.names])) rfl (.plain "::default())" rfl rfl))
  | emptySequence => exact .literal "Vec::new()" rfl rfl

theorem spells_castText {value : String} (h : Spells value.toList []) (method : Method)
    (p : Primitive) :
    Spells (castText value method p).toList ((method.castFor p).toList.map (·.spelling)) := by
  unfold castText
  cases method.castFor p with
  | none => exact h
  | some t =>
    simp only [String.toList_append, List.append_assoc]
    exact h.before rfl ((Spells.lone (isWord_spelling t)).after " as " rfl rfl)

theorem spells_fieldText {x : String} (hx : IsWord x) : Spells (fieldText x).toList [] := by
  have field := Spells.nil.field hx rfl
  rwa [List.append_nil, ← String.toList_append] at field

theorem spells_placeText {x : String} (hx : IsWord x) (method : Method) (p : Primitive) :
    Spells (placeText (fieldText x) method p).toList (method.castNames p) := by
  unfold placeText Method.castNames
  split_ifs
  · rw [String.toList_append]
    exact (spells_fieldText hx).after "&" rfl rfl
  · exact spells_castText (spells_fieldText hx) method p

theorem spells_referenceText (method : Method) (p : Primitive) :
    Spells (referenceText "e" method p).toList (method.castNames p) := by
  have element : Spells "e".toList [] := .plain "e" rfl rfl
  unfold referenceText Method.castNames
  split_ifs
  · exact element
  · refine spells_castText ?_ method p
    rw [String.toList_append]
    exact element.after "*" rfl rfl

theorem spells_readText (method : Method) (p : Primitive) :
    Spells (readText method p).toList (method.readNames p) := by
  have call : Spells ("reader." ++ method.reader ++ "()?").toList [] := by
    rw [String.append_assoc, String.toList_append, String.toList_append]
    exact (Spells.plain "()?" rfl rfl).member (isWord_reader method) rfl "reader." rfl rfl
  unfold readText Method.readNames
  simp only
  split_ifs
  · have pieces : ("reader." ++ method.reader ++ "()?" ++ " as " ++ p.native.spelling).toList =
        ("reader." ++ method.reader ++ "()?").toList ++
          (" as ".toList ++ p.native.spelling.toList) := by
      simp only [String.toList_append, List.append_assoc]
    rw [pieces]
    exact call.before rfl ((Spells.lone (isWord_spelling _)).after " as " rfl rfl)
  · exact call

/-- A number is no type name. -/
theorem spells_number (n : Nat) : Spells (toString n).toList [] := by
  have digits : ∀ c ∈ (toString n).toList, c.isDigit := fun c => isDigit_of_mem_toString
  have name : IsWord (toString n) := fun c hc => by
    simp [isNameChar, Char.isAlphanum, digits c hc]
  have letters : ∀ w ∈ typeNames, ¬ w.toList.all Char.isDigit := by decide
  refine (Spells.lone name).congr fun w hw => ?_
  simp only [List.mem_singleton, List.not_mem_nil, iff_false]
  rintro rfl
  exact letters _ hw (List.all_eq_true.2 digits)

/-! ## Statements -/

/-- The call of a writer. -/
theorem spellAll_writer {value : String} {names : List String} (h : Spells value.toList names)
    (method : Method) :
    SpellAll [.outer ("writer." ++ method.writer ++ "(" ++ value ++ ")?;")] names := by
  have value := (h.before rfl (.plain ")?;" rfl rfl)).after "(" rfl rfl
  rw [List.append_nil] at value
  exact (value.member (isWord_writer method) rfl "writer." rfl rfl).line (by simp) rfl

section Fields

variable {x : String} (hx : IsWord x)

include hx

theorem spellAll_resetFlag : SpellAll (resetLines (.resetFlag x)) [] :=
  ((Spells.plain " = false;" rfl rfl).field hx rfl).line (by simp [fieldText]) rfl

/-- The statement that stores a value in the field. -/
theorem spellAll_assign {value : String} {names : List String} (h : Spells value.toList names) :
    SpellAll [.outer (fieldText x ++ " = " ++ value ++ ";")] names := by
  have value := (h.before rfl (.plain ";" rfl rfl)).after " = " rfl rfl
  rw [List.append_nil] at value
  exact (value.field hx rfl).line (by simp [fieldText]) rfl

/-- The statement that adds a value to the field. -/
theorem spellAll_push {value : String} {names : List String} (h : Spells value.toList names) :
    SpellAll [.outer (fieldText x ++ ".push(" ++ value ++ ");")] names := by
  have value := (h.before rfl (.plain ");" rfl rfl)).after ".push(" rfl rfl
  rw [List.append_nil] at value
  exact (value.field hx rfl).line (by simp [fieldText]) rfl

theorem spellAll_serialize : SpellAll [.outer (fieldText x ++ ".serialize(writer)?;")] [] :=
  ((Spells.plain ".serialize(writer)?;" rfl rfl).field hx rfl).line (by simp [fieldText]) rfl

theorem spellAll_deserialize :
    SpellAll [.outer (fieldText x ++ ".deserialize(reader, types)?;")] [] :=
  ((Spells.plain ".deserialize(reader, types)?;" rfl rfl).field hx rfl).line (by simp [fieldText])
    rfl

theorem spellAll_writeFlag (bit : UInt8) : SpellAll (writeLines (.writeFlag x bit)) [] := by
  have number : Spells (toString bit).toList [] := spells_number bit.toNat
  have value := ((Spells.plain ")?;" rfl rfl).field hx rfl).after ", " rfl rfl
  exact ((number.before rfl value).after "writer.write_flag(" rfl rfl).line (by simp [fieldText])
    rfl

/-- A loop that writes spells what its body spells. -/
theorem spellAll_writeLoop {body : List Line} {names : List String} (h : SpellAll body names) :
    SpellAll (writeLoop x body) names := by
  have count : SpellAll [.outer ("writer.write_count(" ++ fieldText x ++ ".len())?;")] [] :=
    (((Spells.plain ".len())?;" rfl rfl).field hx rfl).after "writer.write_count(" rfl rfl).line
      (by simp [fieldText]) rfl
  have opening : SpellAll [.outer ("for e in &" ++ fieldText x ++ " \x7b")] [] :=
    (((Spells.plain " \x7b" rfl rfl).field hx rfl).after "for e in &" rfl rfl).line
      (by simp [fieldText]) rfl
  have closing : SpellAll [.outer "\x7d"] [] := .literal "\x7d" rfl rfl
  exact (count.cons (.block opening h closing)).congr (by simp)

theorem spellAll_readFlag (bit : UInt8) : SpellAll (readLines (.readFlag x bit)) [] := by
  have number : Spells (toString bit).toList [] := spells_number bit.toNat
  have value := (number.before rfl (.plain ")?;" rfl rfl)).after " = reader.read_flag(" rfl rfl
  exact (value.field hx rfl).line (by simp [fieldText]) rfl

end Fields

/-- A loop that reads spells what its body spells. -/
theorem spellAll_readLoop {body : List Line} {names : List String} (h : SpellAll body names) :
    SpellAll (readLoop body) names := by
  have opening : SpellAll [.outer "for _ in 0..reader.read_count()? \x7b"] [] :=
    .literal "for _ in 0..reader.read_count()? \x7b" rfl rfl
  have closing : SpellAll [.outer "\x7d"] [] := .literal "\x7d" rfl rfl
  exact (SpellAll.block opening h closing).congr (by simp)

/-- The statements that write a field. -/
theorem spellAll_writing {f : FieldSlot} (ident : IsWord f.ident) :
    SpellAll (writeLines (.writing f)) f.encoding.writeNames := by
  have serialize := spellAll_serialize ident
  unfold Op.writing
  cases encoding : f.encoding with
  | primitive method p => exact spellAll_writer (spells_placeText ident method p) method
  | primitiveVector method p =>
    exact spellAll_writeLoop ident (spellAll_writer (spells_referenceText method p) method)
  | object t => exact serialize
  | polymorphic t =>
    have typeId := (Spells.plain ".protocol_type_id())?;" rfl rfl).field ident rfl
    have line : SpellAll [.outer ("writer.write_unsigned_short(" ++ fieldText f.ident ++
        ".protocol_type_id())?;")] [] :=
      (typeId.after "writer.write_unsigned_short(" rfl rfl).line (by simp [fieldText]) rfl
    exact line.cons serialize
  | objectVector t isOpen =>
    have typeId : SpellAll [.outer "writer.write_unsigned_short(e.protocol_type_id())?;"] [] :=
      .literal "writer.write_unsigned_short(e.protocol_type_id())?;" rfl rfl
    have element : SpellAll [.outer "e.serialize(writer)?;"] [] :=
      .literal "e.serialize(writer)?;" rfl rfl
    refine spellAll_writeLoop ident ?_
    cases isOpen with
    | true => exact typeId.cons element
    | false => exact element

/-- The line that makes an element of a sequence. -/
theorem spellAll_element (isOpen : Bool) {t : TypeRef} (ht : IsWord t.name) :
    SpellAll [.outer ("let mut e = " ++
        (if isOpen then "types.read_instance(reader)?" else t.name ++ "::default()") ++ ";")]
      (if isOpen then [] else [t.name]) := by
  cases isOpen with
  | true =>
    have value := ((Spells.plain ";" rfl rfl).after "types.read_instance(reader)?" rfl rfl)
    exact (value.after "let mut e = " rfl rfl).line (by simp) rfl
  | false =>
    have value := (Spells.plain "::default();" rfl rfl).name ht rfl
    exact (value.after "let mut e = " rfl rfl).line (by simp) rfl

/-- The statements that read a field. -/
theorem spellAll_reading {f : FieldSlot} (ident : IsWord f.ident)
    (type : ∀ t, f.encoding.customType = some t → IsWord t.name) :
    SpellAll (readLines (.reading f)) f.encoding.readNames := by
  have deserialize := spellAll_deserialize ident
  unfold Op.reading
  cases encoding : f.encoding with
  | primitive method p => exact spellAll_assign ident (spells_readText method p)
  | primitiveVector method p =>
    exact spellAll_readLoop (spellAll_push ident (spells_readText method p))
  | object t =>
    rw [encoding] at type
    have value := ((Spells.plain "::default();" rfl rfl).name (type t rfl) rfl).after " = " rfl rfl
    have line : SpellAll [.outer (fieldText f.ident ++ " = " ++ t.name ++ "::default();")] _ :=
      (value.field ident rfl).line (by simp [fieldText]) rfl
    exact line.cons deserialize
  | polymorphic t =>
    have value := Spells.plain " = types.read_instance(reader)?;" rfl rfl
    have line : SpellAll [.outer (fieldText f.ident ++ " = types.read_instance(reader)?;")] [] :=
      (value.field ident rfl).line (by simp [fieldText]) rfl
    exact line.cons deserialize
  | objectVector t isOpen =>
    rw [encoding] at type
    have fill : SpellAll [.outer "e.deserialize(reader, types)?;"] [] :=
      .literal "e.deserialize(reader, types)?;" rfl rfl
    have push : SpellAll [.outer (fieldText f.ident ++ ".push(e);")] [] :=
      ((Spells.plain ".push(e);" rfl rfl).field ident rfl).line (by simp [fieldText]) rfl
    have body := spellAll_readLoop ((spellAll_element isOpen (type t rfl)).cons (fill.cons push))
    refine SpellAll.congr body ?_
    cases isOpen <;> simp [Encoding.readNames]

/-! ## Programs -/

/-- A program whose statements for the parent and for flags spell nothing. -/
theorem spellAll_program {l : Layout} {onFlag : FlagSlot → Op} {onField : FieldSlot → Op}
    {lines : Op → List Line} {names : FieldSlot → List String} (idle : lines .nop = [])
    (parent : SpellAll (lines .delegateParent) [])
    (flags : ∀ f ∈ l.flags, SpellAll (lines (onFlag f)) [])
    (fields : ∀ f ∈ l.fields, SpellAll (lines (onField f)) (names f)) :
    SpellAll ((l.program onFlag onField).flatMap lines) (l.fields.flatMap names) := by
  have front : SpellAll (if l.parent.isSome then lines .delegateParent else []) [] := by
    split
    · exact parent
    · exact .nil
  rw [Layout.flatMap_program idle]
  refine ((front.append (.flatMap flags)).append (.flatMap fields)).congr ?_
  simp

/-! ## Parts of the module -/

theorem isWord_type {f : FieldSlot} (coherent : f.Coherent) (worded : f.Worded) :
    (∀ x ∈ f.type.names, IsWord x) ∧ ∀ x ∈ f.initial.names, IsWord x := by
  have word := worded.customType
  have box : IsWord "Box" := .literal rfl rfl
  have anyType : IsWord "ProtocolType" := .literal rfl rfl
  have vec : IsWord "Vec" := .literal rfl rfl
  cases coherent with
  | primitive method p _ type initial =>
    rw [type, initial]
    refine ⟨by simpa [FieldType.names] using isWord_spelling _, ?_⟩
    cases p <;> simp +decide
  | primitiveVector method p _ type initial =>
    rw [type, initial]
    simp [FieldType.names, Initial.names, vec, isWord_spelling]
  | object t type initial encoding =>
    have own := word t (by rw [encoding]; rfl)
    rw [type, initial]
    simp [FieldType.names, Initial.names, own]
  | polymorphic t type initial encoding =>
    have own := word t (by rw [encoding]; rfl)
    rw [type, initial]
    simp [FieldType.names, Initial.names, own, box, anyType]
  | closedVector t type initial encoding =>
    have own := word t (by rw [encoding]; rfl)
    rw [type, initial]
    simp [FieldType.names, Initial.names, own, vec]
  | openVector t type initial encoding =>
    rw [type, initial]
    simp [FieldType.names, Initial.names, vec, box, anyType]

section Module

variable {m : MessageDecl} {l : Layout} (name : IsWord m.name) (sound : l.Sound) (h : l.Worded)

theorem spellAll_title (m : MessageDecl) : SpellAll [.outer (titleText m)] [] := by
  refine .silent ?_
  unfold titleText
  split <;> simp only [String.toList_append] <;> rfl

theorem isWord_baseField : IsWord baseField := .literal rfl rfl

theorem spellAll_closing : SpellAll [.outer "\x7d"] [] := .literal "\x7d" rfl rfl

include name in
/-- A line that goes on with the name of the message. -/
theorem spellAll_opening {text : String} {names : List String} (h : Spells text.toList names)
    (ends : text.toList.getLast?.any isBreak)
    (code : startsCode (text.toList ++ (m.name.toList ++ " \x7b".toList))) :
    SpellAll [.outer (text ++ m.name ++ " \x7b")] (names ++ [m.name]) :=
  (h.append (.inl ends) (.name name rfl (.plain " \x7b" rfl rfl))).line (by simp) code

include name sound h in
theorem spellAll_structLines :
    SpellAll (structLines m l)
      (m.name :: (l.parent.toList.flatMap (fun p => [p.name]) ++
        l.flags.flatMap (fun _ => ["bool"]) ++ l.fields.flatMap (·.type.names))) := by
  have derived : SpellAll [.outer "#[derive(Debug)]"] ["Debug"] :=
    .literal "#[derive(Debug)]" rfl rfl
  have derived : SpellAll [.outer "#[derive(Debug)]"] [] := derived.congr (by decide)
  have base (p : TypeRef) (hp : p ∈ l.parent.toList) :
      SpellAll [.outer ("pub " ++ baseField ++ ": " ++ p.name ++ ",")] [p.name] := by
    have word := h.parent p (Option.mem_toList.1 hp)
    have type := Spells.label isWord_baseField (.name word rfl (.plain "," rfl rfl))
    exact (type.after "pub " rfl rfl).line (by simp) rfl
  have flag (f : FlagSlot) (hf : f ∈ l.flags) :
      SpellAll [.outer ("pub " ++ f.ident ++ ": bool,")] ["bool"] := by
    have bool : Spells "bool,".toList ["bool"] := .literal "bool," rfl rfl
    have type := Spells.label (isWord_of_isSegment (h.flags f hf)) bool
    exact (type.after "pub " rfl rfl).line (by simp) rfl
  have field (f : FieldSlot) (hf : f ∈ l.fields) :
      SpellAll [.outer ("pub " ++ f.ident ++ ": " ++ typeText f.type ++ ",")] f.type.names := by
    have names := (isWord_type (sound.coherent f hf) (h.fields f hf)).1
    have text := (spells_typeText names).before rfl (.plain "," rfl rfl)
    rw [List.append_nil] at text
    have type := Spells.label (isWord_of_isSegment (h.fields f hf).ident) text
    exact (type.after "pub " rfl rfl).line (by simp) rfl
  have front := (spellAll_title m).append derived
  have plain : Spells "pub struct ".toList [] := .plain "pub struct " rfl rfl
  have opening := spellAll_opening name plain rfl rfl
  unfold structLines
  split_ifs with empty
  · obtain ⟨parent, flags, fields⟩ := l.eq_nil_of_isEmpty empty
    have whole : SpellAll [.outer ("pub struct " ++ m.name ++ " \x7b\x7d")] [m.name] :=
      ((Spells.name name rfl (.plain " \x7b\x7d" rfl rfl)).after "pub struct " rfl rfl).line
        (by simp) rfl
    rw [parent, flags, fields]
    exact front.append whole
  · have members := ((SpellAll.map base).append (.map flag)).append (.map field)
    have body := SpellAll.block opening members spellAll_closing
    exact (front.append body).congr (by simp)

include name sound h in
theorem spellAll_defaultLines :
    SpellAll (defaultLines m l)
      ("Default" :: m.name :: "Self" :: (l.parent.toList.flatMap (fun p => [p.name]) ++
        l.fields.flatMap (·.initial.names))) := by
  have base (p : TypeRef) (hp : p ∈ l.parent.toList) :
      SpellAll [.outer (baseField ++ ": " ++ p.name ++ "::default(),")] [p.name] := by
    have word := h.parent p (Option.mem_toList.1 hp)
    have value := Spells.label isWord_baseField (.name word rfl (.plain "::default()," rfl rfl))
    exact value.line (by simp) (startsCode_label isWord_baseField _)
  have flag (f : FlagSlot) (hf : f ∈ l.flags) :
      SpellAll [.outer (f.ident ++ ": false,")] [] := by
    have ident := isWord_of_isSegment (h.flags f hf)
    have value := Spells.label ident (.plain "false," rfl rfl)
    exact value.line (by simp) (startsCode_label ident _)
  have field (f : FieldSlot) (hf : f ∈ l.fields) :
      SpellAll [.outer (f.ident ++ ": " ++ initialText f.initial ++ ",")] f.initial.names := by
    have ident := isWord_of_isSegment (h.fields f hf).ident
    have names := (isWord_type (sound.coherent f hf) (h.fields f hf)).2
    have text := (spells_initialText names).before rfl (.plain "," rfl rfl)
    rw [List.append_nil] at text
    exact (text.label ident).line (by simp) (startsCode_label ident _)
  have impl : Spells "impl Default for ".toList ["Default"] := .literal "impl Default for " rfl rfl
  have function : SpellAll [.outer "fn default() -> Self \x7b"] ["Self"] :=
    .literal "fn default() -> Self \x7b" rfl rfl
  have value : SpellAll (if l.isEmpty then [.outer "Self \x7b\x7d"]
      else block "Self \x7b"
        ((l.parent.toList.map fun p => .outer (baseField ++ ": " ++ p.name ++ "::default(),")) ++
          (l.flags.map fun f => .outer (f.ident ++ ": false,")) ++
          l.fields.map fun f => .outer (f.ident ++ ": " ++ initialText f.initial ++ ","))
        "\x7d")
      ("Self" :: (l.parent.toList.flatMap (fun p => [p.name]) ++
        l.fields.flatMap (·.initial.names))) := by
    split_ifs with empty
    · obtain ⟨parent, -, fields⟩ := l.eq_nil_of_isEmpty empty
      have whole : SpellAll [.outer "Self \x7b\x7d"] ["Self"] := .literal "Self \x7b\x7d" rfl rfl
      rw [parent, fields]
      exact whole
    · have opening : SpellAll [.outer "Self \x7b"] ["Self"] := .literal "Self \x7b" rfl rfl
      have members := ((SpellAll.map base).append (.map flag)).append (.map field)
      exact (SpellAll.block opening members spellAll_closing).congr (by simp)
  have body := SpellAll.block function value spellAll_closing
  exact (SpellAll.block (spellAll_opening name impl rfl rfl) body spellAll_closing).congr
    (by simp)

include name in
theorem spellAll_idLines (p : Program) : SpellAll (idLines m p) [m.name, "u16"] := by
  have opening := spellAll_opening name (.plain "impl " rfl rfl) rfl rfl
  have const : Spells "pub const ID: u16 = ".toList ["u16"] :=
    .literal "pub const ID: u16 = " rfl rfl
  have number : Spells (toString p.protocolId).toList [] := spells_number p.protocolId.toNat
  have line : SpellAll [.outer ("pub const ID: u16 = " ++ toString p.protocolId ++ ";")] ["u16"] :=
    (const.append (.inl rfl) (number.before rfl (.plain ";" rfl rfl))).line (by simp) rfl
  exact SpellAll.block opening line spellAll_closing

include name in
theorem spellAll_messageLines :
    SpellAll (messageLines m) ["NetworkMessage", m.name, "u16", "Self"] := by
  have impl : Spells "impl NetworkMessage for ".toList ["NetworkMessage"] :=
    .literal "impl NetworkMessage for " rfl rfl
  have id : SpellAll [.outer "fn message_id(&self) -> u16 \x7b"] ["u16"] :=
    .literal "fn message_id(&self) -> u16 \x7b" rfl rfl
  have own : SpellAll [.outer "Self::ID"] ["Self"] := .literal "Self::ID" rfl rfl
  have asAny : SpellAll [.outer "fn as_any(&self) -> &dyn std::any::Any \x7b"] [] :=
    .literal "fn as_any(&self) -> &dyn std::any::Any \x7b" rfl rfl
  have self : SpellAll [.outer "self"] [] := .literal "self" rfl rfl
  have functions := (SpellAll.block id own spellAll_closing).append
    ((SpellAll.block asAny self spellAll_closing).append .nil)
  have body : SpellAll (spaced
      [block "fn message_id(&self) -> u16 \x7b" [.outer "Self::ID"] "\x7d",
        block "fn as_any(&self) -> &dyn std::any::Any \x7b" [.outer "self"] "\x7d"]) _ :=
    .spaced functions
  exact SpellAll.block (spellAll_opening name impl rfl rfl) body spellAll_closing

include sound h in
theorem spellAll_resetFunction :
    SpellAll (resetFunction l.resetProgram) (l.fields.flatMap (·.initial.names)) := by
  have parent : SpellAll (resetLines .delegateParent) [] := .literal "self.base.reset();" rfl rfl
  have flags : ∀ f ∈ l.flags, SpellAll (resetLines (.resetFlag f.ident)) [] := fun f hf =>
    spellAll_resetFlag (isWord_of_isSegment (h.flags f hf))
  have fields : ∀ f ∈ l.fields,
      SpellAll (resetLines (.resetField f.ident f.initial)) f.initial.names := by
    intro f hf
    have names := (isWord_type (sound.coherent f hf) (h.fields f hf)).2
    exact spellAll_assign (isWord_of_isSegment (h.fields f hf).ident) (spells_initialText names)
  have statements : SpellAll (l.resetProgram.flatMap resetLines)
      (l.fields.flatMap (·.initial.names)) :=
    spellAll_program rfl parent flags fields
  have opening : SpellAll [.outer "fn reset(&mut self) \x7b"] [] :=
    .literal "fn reset(&mut self) \x7b" rfl rfl
  rw [resetFunction, isIdle_resetProgram]
  split_ifs with empty
  · rw [(l.eq_nil_of_isEmpty empty).2.2]
    exact .literal "fn reset(&mut self) \x7b\x7d" rfl rfl
  · exact (SpellAll.block opening statements spellAll_closing).congr (by simp)

include h in
theorem spellAll_serializeFunction :
    SpellAll (serializeFunction l.writeProgram)
      ("Writer" :: "Result" :: "Ok" :: l.fields.flatMap (·.encoding.writeNames)) := by
  have parent : SpellAll (writeLines .delegateParent) [] :=
    .literal "self.base.serialize(writer)?;" rfl rfl
  have flags : ∀ f ∈ l.flags, SpellAll (writeLines (.writeFlag f.ident f.bit)) [] := fun f hf =>
    spellAll_writeFlag (isWord_of_isSegment (h.flags f hf)) f.bit
  have fields : ∀ f ∈ l.fields, SpellAll (writeLines (.writing f)) f.encoding.writeNames :=
    fun f hf => spellAll_writing (isWord_of_isSegment (h.fields f hf).ident)
  have statements : SpellAll (l.writeProgram.flatMap writeLines)
      (l.fields.flatMap (·.encoding.writeNames)) :=
    spellAll_program rfl parent flags fields
  have writer : IsWord (if isIdle l.writeProgram then "_writer" else "writer") := by
    split <;> exact .literal rfl rfl
  have types : Spells "&mut Writer) -> Result<()> \x7b".toList ["Writer", "Result"] :=
    .literal "&mut Writer) -> Result<()> \x7b" rfl rfl
  have opening : SpellAll [.outer ("fn serialize(&self, " ++
      (if isIdle l.writeProgram then "_writer" else "writer") ++
      ": &mut Writer) -> Result<()> \x7b")] ["Writer", "Result"] :=
    ((types.label writer).after "fn serialize(&self, " rfl rfl).line (by simp) rfl
  have ok : SpellAll [.outer "Ok(())"] ["Ok"] := .literal "Ok(())" rfl rfl
  exact (SpellAll.block opening (statements.append ok) spellAll_closing).congr
    (by simp [or_comm, or_left_comm])

include h in
theorem spellAll_deserializeFunction :
    SpellAll (deserializeFunction l.readProgram)
      ("Reader" :: "TypeRegistry" :: "Result" :: "Ok" ::
        l.fields.flatMap (·.encoding.readNames)) := by
  have parent : SpellAll (readLines .delegateParent) [] :=
    .literal "self.base.deserialize(reader, types)?;" rfl rfl
  have flags : ∀ f ∈ l.flags, SpellAll (readLines (.readFlag f.ident f.bit)) [] := fun f hf =>
    spellAll_readFlag (isWord_of_isSegment (h.flags f hf)) f.bit
  have fields : ∀ f ∈ l.fields, SpellAll (readLines (.reading f)) f.encoding.readNames := by
    intro f hf
    have worded := h.fields f hf
    exact spellAll_reading (isWord_of_isSegment worded.ident) worded.customType
  have statements : SpellAll (l.readProgram.flatMap readLines)
      (l.fields.flatMap (·.encoding.readNames)) :=
    spellAll_program rfl parent flags fields
  have reader : IsWord (if isIdle l.readProgram then "_reader" else "reader") := by
    split <;> exact .literal rfl rfl
  have types : IsWord (if l.readProgram.any Op.usesTypes then "types" else "_types") := by
    split <;> exact .literal rfl rfl
  have reads : Spells "&mut Reader<'_>, ".toList ["Reader"] := .literal "&mut Reader<'_>, " rfl rfl
  have looksUp : Spells "&TypeRegistry) -> Result<()> \x7b".toList ["TypeRegistry", "Result"] :=
    .literal "&TypeRegistry) -> Result<()> \x7b" rfl rfl
  have arguments := (reads.append (.inl rfl) (looksUp.label types)).label reader
  have opening : SpellAll [.outer ("fn deserialize(&mut self, " ++
      (if isIdle l.readProgram then "_reader" else "reader") ++ ": &mut Reader<'_>, " ++
      (if l.readProgram.any Op.usesTypes then "types" else "_types") ++
      ": &TypeRegistry) -> Result<()> \x7b")] ["Reader", "TypeRegistry", "Result"] :=
    (arguments.after "fn deserialize(&mut self, " rfl rfl).line (by simp) rfl
  have ok : SpellAll [.outer "Ok(())"] ["Ok"] := .literal "Ok(())" rfl rfl
  exact (SpellAll.block opening (statements.append ok) spellAll_closing).congr
    (by simp [or_comm, or_left_comm])

include name sound h in
theorem spellAll_codecLines :
    SpellAll (codecLines m (.ofLayout m l))
      ("Codec" :: m.name :: "Writer" :: "Reader" :: "TypeRegistry" :: "Result" :: "Ok" ::
        (l.fields.flatMap (·.initial.names) ++ l.fields.flatMap (·.encoding.writeNames) ++
          l.fields.flatMap (·.encoding.readNames))) := by
  have impl : Spells "impl Codec for ".toList ["Codec"] := .literal "impl Codec for " rfl rfl
  have functions := (spellAll_resetFunction sound h).append
    ((spellAll_serializeFunction h).append ((spellAll_deserializeFunction h).append .nil))
  have body : SpellAll (spaced [resetFunction l.resetProgram, serializeFunction l.writeProgram,
      deserializeFunction l.readProgram]) _ := .spaced functions
  refine (SpellAll.block (spellAll_opening name impl rfl rfl) body spellAll_closing).congr ?_
  intro w _
  rw [← not_iff_not]
  simp only [List.mem_append, List.mem_cons, List.not_mem_nil, or_false, not_or]
  constructor <;> (intro missing; simp only [missing, not_false_eq_true, and_self])

end Module

/-- Imports spell nothing. -/
theorem spellAll_importLines (settings : Settings) (l : Layout) :
    SpellAll (importLines settings l) [] := by
  have use (path : String) : SpellAll [useLine path] [] := .silent (by
    simp only [String.toList_append]
    rfl)
  have uses (paths : List String) : SpellAll (paths.map useLine) [] := by
    induction paths with
    | nil => exact .nil
    | cons path paths ih => exact (use path).cons ih
  have runtime := uses ((runtimeNames l).map (settings.runtimeCrate ++ "::" ++ ·))
  rw [List.map_map] at runtime
  have used := uses (l.imports.filterMap (importPath settings l))
  have parts : SpellAll [(runtimeNames l).map fun name =>
        useLine (settings.runtimeCrate ++ "::" ++ name),
      (l.imports.filterMap (importPath settings l)).map useLine].flatten [] :=
    runtime.append (used.append .nil)
  exact .spaced parts

end Source

/-! ## Names of modules -/

/-- The names that every module spells. -/
def commonNames : List String :=
  ["Codec", "NetworkMessage", "Reader", "Result", "TypeRegistry", "Writer", "Default", "Ok",
    "Self", "u16"]

/-- The names in the code of a field. -/
def FieldSlot.names (f : FieldSlot) : List String :=
  f.type.names ++ f.initial.names ++ f.encoding.writeNames ++ f.encoding.readNames

/-- The names in the module of a message. -/
def Layout.names (m : MessageDecl) (l : Layout) : List String :=
  commonNames ++ m.name :: (l.parent.toList.flatMap (fun p => [p.name]) ++
    l.flags.flatMap (fun _ => ["bool"]) ++ l.fields.flatMap (·.names))

namespace Source

theorem spellAll_moduleLines (settings : Settings) {m : MessageDecl} {l : Layout}
    (name : IsWord m.name) (sound : l.Sound) (h : l.Worded) :
    SpellAll (moduleLines settings m l (.ofLayout m l)) (l.names m) := by
  have header : SpellAll [.outer ("// `" ++ m.name ++ "`: generated by protogen, do not edit.")]
      [] := .silent (by
    simp only [String.toList_append]
    rfl)
  have parts : SpellAll [[.outer ("// `" ++ m.name ++ "`: generated by protogen, do not edit.")],
      importLines settings l, structLines m l, defaultLines m l, idLines m (.ofLayout m l),
      codecLines m (.ofLayout m l), messageLines m].flatten _ :=
    header.append ((spellAll_importLines settings l).append ((spellAll_structLines name sound
      h).append ((spellAll_defaultLines name sound h).append ((spellAll_idLines name _).append
        ((spellAll_codecLines name sound h).append ((spellAll_messageLines name).append
          .nil))))))
  refine (SpellAll.spaced parts).congr fun w _ => ?_
  -- stated for what is not spelled, each name is missing on its own
  rw [← not_iff_not]
  simp only [Layout.names, commonNames, FieldSlot.names, List.mem_append, List.mem_cons,
    List.not_mem_nil, List.mem_flatMap, or_false, false_or, and_or_left, exists_or, not_or]
  constructor <;> (intro missing; simp only [missing, not_false_eq_true, and_self])

/-- Which type names the text of a module spells. -/
theorem mem_namesOf_moduleLines {settings : Settings} (neat : settings.Neat) {m : MessageDecl}
    (name : IsWord m.name) (package : Unbroken m.package) {l : Layout} (sound : l.Sound)
    (h : l.Worded) :
    ∀ w ∈ typeNames,
      w ∈ namesOf (print (moduleLines settings m l (.ofLayout m l))) ↔ w ∈ l.names m := by
  intro w hw
  have filled : w ≠ "" := fun empty => toList_ne_nil_of_mem w hw (by rw [empty]; rfl)
  rw [namesOf_print (neat_moduleLines neat name.unbroken package sound h.unbroken) filled]
  exact spellAll_moduleLines settings name sound h w hw

end Source

end WireCodec
