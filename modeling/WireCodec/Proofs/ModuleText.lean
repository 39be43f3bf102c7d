import WireCodec.Proofs.Bindings
import WireCodec.Proofs.Planning
import WireCodec.Proofs.Words
import WireCodec.Source.Artifact

/-!
# Texts of the generated modules

Where names and paths stay on their lines, so does every text of a generated module
(`Source.neat_moduleLines`, `Source.neat_registryLines`, `Source.neat_indexLines`). Where names are
words, the module declares nothing but its imports and its struct, or what it exports
(`declarations`).
-/

namespace WireCodec

/-! ## Names of layouts -/

/-- The code of a field spells a segment and the name of a type that satisfies `P`. -/
structure FieldSlot.Named (P : String → Prop) (f : FieldSlot) : Prop where
  ident : IsSegment f.ident
  customType : ∀ t, f.encoding.customType = some t → P t.name

/-- The code of a layout spells segments and names of types that satisfy `P`. -/
structure Layout.Named (P : String → Prop) (l : Layout) : Prop where
  parent : ∀ t, l.parent = some t → P t.name
  flags : ∀ f ∈ l.flags, IsSegment f.ident
  fields : ∀ f ∈ l.fields, f.Named P
  imports : ∀ i ∈ l.imports, P i.type.name

/-- The names that the code of a field spells are words. -/
abbrev FieldSlot.Worded (f : FieldSlot) : Prop := f.Named IsWord

/-- The names that the code of a layout spells are words. -/
abbrev Layout.Worded (l : Layout) : Prop := l.Named IsWord

namespace Layout.Named

variable {P Q : String → Prop} {l : Layout}

theorem mono (h : l.Named P) (imp : ∀ name, P name → Q name) : l.Named Q where
  parent := fun t ht => imp _ (h.parent t ht)
  flags := h.flags
  fields := fun f hf => ⟨(h.fields f hf).ident, fun t ht => imp _ ((h.fields f hf).customType t ht)⟩
  imports := fun i hi => imp _ (h.imports i hi)

theorem unbroken (h : l.Worded) : l.Named Unbroken := h.mono fun _ word => word.unbroken

theorem unbroken_flags (h : l.Named P) : ∀ f ∈ l.flags, Unbroken f.ident := fun f hf =>
  (h.flags f hf).unbroken

theorem unbroken_fields (h : l.Named P) : ∀ f ∈ l.fields, Unbroken f.ident := fun f hf =>
  (h.fields f hf).ident.unbroken

end Layout.Named

/-! ## Words of the wire -/

theorem isDigit_of_mem_toString {n : Nat} {c : Char} (hc : c ∈ (toString n).toList) :
    c.isDigit := by
  rw [Nat.toString_eq_repr, Nat.toList_repr] at hc
  exact Nat.isDigit_of_mem_toDigits (by decide) (by decide) hc

theorem unbroken_repr (n : Nat) : Unbroken (toString n) := by
  intro c hc
  have digit := isDigit_of_mem_toString hc
  constructor
  · rintro rfl
    exact nomatch digit
  · rintro rfl
    exact nomatch digit

theorem unbroken_toString_byte (n : UInt8) : Unbroken (toString n) := unbroken_repr n.toNat

theorem unbroken_toString_short (n : UInt16) : Unbroken (toString n) := unbroken_repr n.toNat

theorem unbroken_spelling (t : NativeType) : Unbroken t.spelling := by cases t <;> decide

theorem unbroken_stem (m : Method) : Unbroken m.stem := by cases m <;> decide

theorem unbroken_writer (m : Method) : Unbroken m.writer :=
  unbroken_append.2 ⟨by decide, unbroken_stem m⟩

theorem unbroken_reader (m : Method) : Unbroken m.reader :=
  unbroken_append.2 ⟨by decide, unbroken_stem m⟩

namespace Source

theorem unbroken_castText {value : String} (h : Unbroken value) (method : Method) (p : Primitive) :
    Unbroken (castText value method p) := by
  unfold castText
  split
  · simp +decide [h, unbroken_spelling]
  · exact h

theorem unbroken_placeText {place : String} (h : Unbroken place) (method : Method) (p : Primitive) :
    Unbroken (placeText place method p) := by
  unfold placeText
  split
  · simp +decide [h]
  · exact unbroken_castText h method p

theorem unbroken_referenceText {reference : String} (h : Unbroken reference) (method : Method)
    (p : Primitive) : Unbroken (referenceText reference method p) := by
  unfold referenceText
  split
  · exact h
  · exact unbroken_castText (by simp +decide [h]) method p

theorem unbroken_readText (method : Method) (p : Primitive) : Unbroken (readText method p) := by
  unfold readText
  simp only
  split <;> simp +decide [unbroken_reader, unbroken_spelling]

theorem unbroken_fieldText {field : String} (h : Unbroken field) : Unbroken (fieldText field) := by
  simp +decide [fieldText, h]

theorem neat_writing {f : FieldSlot} (h : f.Named Unbroken) : Neat (writeLines (.writing f)) := by
  have ident := unbroken_fieldText h.ident.unbroken
  unfold Op.writing
  split
  · simp +decide [writeLines, Line.outer, ident, unbroken_writer, unbroken_placeText]
  · simp +decide [writeLines, writeLoop, Line.outer, ident, unbroken_writer,
      unbroken_referenceText]
  · simp +decide [writeLines, Line.outer, ident]
  · simp +decide [writeLines, Line.outer, ident]
  · rename_i isOpen _
    cases isOpen <;> simp +decide [writeLines, writeLoop, Line.outer, ident]

theorem neat_reading {f : FieldSlot} (h : f.Named Unbroken) : Neat (readLines (.reading f)) := by
  have ident := unbroken_fieldText h.ident.unbroken
  have type := h.customType
  unfold Op.reading
  split
  · simp +decide [readLines, Line.outer, ident, unbroken_readText]
  · simp +decide [readLines, readLoop, Line.outer, ident, unbroken_readText]
  · rename_i t object
    rw [object] at type
    simp +decide [readLines, Line.outer, ident, type t rfl]
  · simp +decide [readLines, Line.outer, ident]
  · rename_i t isOpen vector
    rw [vector] at type
    cases isOpen <;> simp +decide [readLines, readLoop, Line.outer, ident, type t rfl]

theorem unbroken_typeText {f : FieldSlot} (coherent : f.Coherent) (h : f.Named Unbroken) :
    Unbroken (typeText f.type) := by
  have word := h.customType
  cases coherent with
  | primitive method p _ type =>
    rw [type]
    exact unbroken_spelling p.native
  | primitiveVector method p _ type =>
    rw [type]
    simp +decide [typeText, unbroken_spelling]
  | object t type _ encoding =>
    rw [type]
    exact word t (by rw [encoding]; rfl)
  | closedVector t type _ encoding =>
    rw [type]
    simp +decide [typeText, word t (by rw [encoding]; rfl)]
  | polymorphic t type =>
    rw [type]
    simp +decide [typeText]
  | openVector t type =>
    rw [type]
    simp +decide [typeText]

theorem unbroken_initialText {f : FieldSlot} (coherent : f.Coherent) (h : f.Named Unbroken) :
    Unbroken (initialText f.initial) := by
  have word := h.customType
  cases coherent with
  | primitive method p _ _ initial =>
    rw [initial]
    cases p <;> decide
  | object t _ initial encoding =>
    rw [initial]
    simp +decide [initialText, word t (by rw [encoding]; rfl)]
  | polymorphic t _ initial encoding =>
    rw [initial]
    simp +decide [initialText, word t (by rw [encoding]; rfl)]
  | primitiveVector method p _ _ initial => rw [initial]; decide
  | closedVector t _ initial => rw [initial]; decide
  | openVector t _ initial => rw [initial]; decide

/-! ## Programs -/

theorem neat_program {l : Layout} {onFlag : FlagSlot → Op} {onField : FieldSlot → Op}
    {lines : Op → List Line} (idle : lines .nop = []) (parent : Neat (lines .delegateParent))
    (flags : ∀ f ∈ l.flags, Neat (lines (onFlag f)))
    (fields : ∀ f ∈ l.fields, Neat (lines (onField f))) :
    Neat ((l.program onFlag onField).flatMap lines) := by
  rw [Layout.flatMap_program idle, neat_append, neat_append, neat_flatMap, neat_flatMap]
  refine ⟨⟨?_, flags⟩, fields⟩
  split
  · exact parent
  · exact neat_nil

section Module

variable {m : MessageDecl} {l : Layout} (name : Unbroken m.name) (sound : l.Sound)
  (h : l.Named Unbroken)

include sound h in
theorem neat_resetProgram : Neat (l.resetProgram.flatMap resetLines) := by
  refine neat_program rfl (by decide) (fun f hf => ?_) fun f hf => ?_
  · simp +decide [resetLines, Line.outer, unbroken_fieldText (h.unbroken_flags f hf)]
  · have worded := h.fields f hf
    simp +decide [resetLines, Line.outer, unbroken_fieldText worded.ident.unbroken,
      unbroken_initialText (sound.coherent f hf) worded]

include h in
theorem neat_writeProgram : Neat (l.writeProgram.flatMap writeLines) := by
  refine neat_program rfl (by decide) (fun f hf => ?_) fun f hf =>
    neat_writing (h.fields f hf)
  simp +decide [writeLines, Line.outer, unbroken_fieldText (h.unbroken_flags f hf),
    unbroken_toString_byte]

include h in
theorem neat_readProgram : Neat (l.readProgram.flatMap readLines) := by
  refine neat_program rfl (by decide) (fun f hf => ?_) fun f hf =>
    neat_reading (h.fields f hf)
  simp +decide [readLines, Line.outer, unbroken_fieldText (h.unbroken_flags f hf),
    unbroken_toString_byte]

include name sound h in
theorem neat_structLines (package : Unbroken m.package) : Neat (structLines m l) := by
  have title : Unbroken (titleText m) := by
    unfold titleText
    split <;> simp +decide [package, name, unbroken_toString_short]
  have types : ∀ f ∈ l.fields, Unbroken (typeText f.type) := fun f hf =>
    unbroken_typeText (sound.coherent f hf) (h.fields f hf)
  unfold structLines
  split
  · simp +decide [Line.outer, title, name]
  · simp +decide [Line.outer, title, name, baseField]
    exact ⟨h.parent, h.unbroken_flags, fun f hf => ⟨h.unbroken_fields f hf, types f hf⟩⟩

include name sound h in
theorem neat_defaultLines : Neat (defaultLines m l) := by
  have initials : ∀ f ∈ l.fields, Unbroken (initialText f.initial) := fun f hf =>
    unbroken_initialText (sound.coherent f hf) (h.fields f hf)
  unfold defaultLines
  simp only
  split
  · simp +decide [Line.outer, name]
  · simp +decide [Line.outer, name, baseField]
    exact ⟨h.parent, h.unbroken_flags,
      fun f hf => ⟨h.unbroken_fields f hf, initials f hf⟩⟩

include name sound h in
theorem neat_codecLines : Neat (codecLines m (.ofLayout m l)) := by
  have reset : Neat (resetFunction l.resetProgram) := by
    unfold resetFunction
    split
    · decide
    · simp +decide [neat_resetProgram sound h]
  have serialize : Neat (serializeFunction l.writeProgram) := by
    have writer : Unbroken (if isIdle l.writeProgram then "_writer" else "writer") := by
      split <;> decide
    simp +decide [serializeFunction, Line.outer, neat_writeProgram h, writer]
  have deserialize : Neat (deserializeFunction l.readProgram) := by
    have reader : Unbroken (if isIdle l.readProgram then "_reader" else "reader") := by
      split <;> decide
    have types : Unbroken (if l.readProgram.any Op.usesTypes then "types" else "_types") := by
      split <;> decide
    simp +decide [deserializeFunction, Line.outer, neat_readProgram h, reader, types,
      -List.any_eq_true]
  simp +decide [codecLines, Program.ofLayout, name, reset, serialize, deserialize]

include name in
theorem neat_idLines (p : Program) : Neat (idLines m p) := by
  simp +decide [idLines, Line.outer, name, unbroken_toString_short]

include name in
theorem neat_messageLines : Neat (messageLines m) := by
  simp +decide [messageLines, Line.outer, name]

end Module

/-! ## Imports -/

theorem unbroken_importPath {settings : Settings} (neat : settings.Neat) {l : Layout} {i : Import}
    (plain : Unbroken i.type.name) {path : String} (h : importPath settings l i = some path) :
    Unbroken path := by
  unfold importPath at h
  split at h
  · cases h
    exact neat.messagePath plain i.type.package
  · split_ifs at h
    cases h
    exact neat.typePath plain i.type.package

theorem neat_importLines {settings : Settings} (neat : settings.Neat) {l : Layout}
    (h : l.Named Unbroken) : Neat (importLines settings l) := by
  have runtime : ∀ name ∈ runtimeNames l, Unbroken name := by
    unfold runtimeNames
    split <;> decide
  have used : ∀ path ∈ l.imports.filterMap (importPath settings l), Unbroken path := by
    intro path hp
    obtain ⟨i, hi, found⟩ := List.mem_filterMap.1 hp
    exact unbroken_importPath neat (h.imports i hi) found
  rw [importLines, neat_spaced, List.forall_mem_cons, List.forall_mem_singleton, neat_map, neat_map]
  constructor
  · intro name mem
    simp +decide [useLine, Line.outer, neat.runtimeCrate, runtime name mem]
  · intro path mem
    simp +decide [useLine, Line.outer, used path mem]

theorem neat_moduleLines {settings : Settings} (neat : settings.Neat) {m : MessageDecl}
    (name : Unbroken m.name) (package : Unbroken m.package) {l : Layout} (sound : l.Sound)
    (h : l.Named Unbroken) : Neat (moduleLines settings m l (.ofLayout m l)) := by
  have header : Neat [.outer ("// `" ++ m.name ++ "`: generated by protogen, do not edit.")] := by
    simp +decide [Line.outer, name]
  rw [moduleLines, neat_spaced]
  simp only [List.forall_mem_cons, header, neat_importLines neat h,
    neat_structLines name sound h package, neat_defaultLines name sound h, neat_idLines name,
    neat_codecLines name sound h, neat_messageLines name, true_and]
  exact List.forall_mem_nil _

theorem moduleLines_ne_nil (settings : Settings) (m : MessageDecl) (l : Layout) (p : Program) :
    moduleLines settings m l p ≠ [] :=
  List.ne_nil_of_mem (subset_spaced List.mem_cons_self List.mem_cons_self)

/-! ## Declarations -/

theorem declaration?_useLine (root : String) {name : String} (plain : ':' ∉ name.toList) :
    (useLine (root ++ "::" ++ name)).declaration? = some (.item name) := by
  apply (declaration?_use _).trans
  rw [String.toList_append, String.toList_append]
  exact congrArg (fun name => some (Declaration.item name)) (lastSegment_append plain root.toList)

theorem declaration?_pubUseLine (root : String) {name : String} (plain : ':' ∉ name.toList) :
    (Line.outer ("pub use " ++ (root ++ "::" ++ name) ++ ";")).declaration? =
      some (.item name) := by
  apply (declaration?_pubUse _).trans
  rw [String.toList_append, String.toList_append]
  exact congrArg (fun name => some (Declaration.item name)) (lastSegment_append plain root.toList)

theorem declarations_map {α : Type} (f : α → Line) (name : α → String) {xs : List α}
    (h : ∀ x ∈ xs, (f x).declaration? = some (.item (name x))) :
    declarations (xs.map f) = (xs.map name).map .item := by
  induction xs with
  | nil => rfl
  | cons x xs ih =>
    obtain ⟨first, others⟩ := List.forall_mem_cons.1 h
    rw [List.map_cons, declarations, List.filterMap_cons_some first]
    exact congrArg (_ :: ·) (ih others)

theorem declarations_runtimeLines (settings : Settings) {names : List String}
    (plain : ∀ name ∈ names, ':' ∉ name.toList) :
    declarations (names.map fun name => useLine (settings.runtimeCrate ++ "::" ++ name)) =
      names.map .item := by
  have := declarations_map (fun name => useLine (settings.runtimeCrate ++ "::" ++ name)) id
    fun name mem => declaration?_useLine settings.runtimeCrate (plain name mem)
  rwa [List.map_id] at this

/-- A line that declares nothing whatever its text goes on with. -/
def Silent (text : String) : Prop := ∀ rest, declaration? (text.toList ++ rest) = none

/-- A line that is given in full, or so far. -/
theorem Silent.literal (text : String) {cs : List Char} (chars : text = .ofList cs)
    (none : ∀ rest, declaration? (cs ++ rest) = none) : Silent text := by
  intro rest
  rw [chars, String.toList_ofList]
  exact none rest

theorem Silent.append {text : String} (h : Silent text) (rest : String) :
    Silent (text ++ rest) := by
  intro further
  rw [String.toList_append, List.append_assoc]
  exact h _

theorem Silent.declaration? {text : String} (h : Silent text) :
    (Line.outer text).declaration? = none := by
  have := h []
  rwa [List.append_nil] at this

theorem declarations_cons {text : String} (h : Silent text) (ls : List Line) :
    declarations (.outer text :: ls) = declarations ls :=
  List.filterMap_cons_none h.declaration?

theorem silent_close : Silent "\x7d" := .literal _ rfl fun _ => rfl

theorem declarations_of_silent {opening : String} (h : Silent opening) (body : List Line) :
    declarations (block opening body "\x7d") = [] := by
  rw [declarations_block]
  exact (declarations_cons h _).trans (declarations_cons silent_close [])

theorem declaration?_struct {name : String} (word : IsWord name) {rest : String} {cs : List Char}
    (blank : rest.toList = ' ' :: cs) :
    (Line.outer ("pub struct " ++ name ++ rest)).declaration? = some (.item name) := by
  have plain : ' ' ∉ name.toList := word.not_mem (by decide)
  show declaration? ("pub struct " ++ name ++ rest).toList = _
  rw [String.toList_append, String.toList_append, blank, List.append_assoc]
  exact congrArg (fun name => some (Declaration.item name)) (word_append plain cs)

/-- The comment and the attribute in front of a struct declare nothing. -/
theorem declarations_title (m : MessageDecl) :
    declarations [.outer (titleText m), .outer "#[derive(Debug)]"] = [] := by
  have title : Silent (titleText m) := by
    unfold titleText
    split
    · exact ((Silent.literal "/// Protocol message " rfl fun _ => rfl).append _).append _
    · simp only [String.append_assoc]
      exact (Silent.literal "/// `" rfl fun _ => rfl).append _
  have derive := Silent.literal "#[derive(Debug)]" rfl fun _ => rfl
  exact (declarations_cons title _).trans (declarations_cons derive [])

theorem declarations_structLines {m : MessageDecl} (word : IsWord m.name) (l : Layout) :
    declarations (structLines m l) = [.item m.name] := by
  have header := declarations_title m
  rw [structLines, declarations_append, header, List.nil_append]
  split
  · exact List.filterMap_cons_some (declaration?_struct word rfl)
  · rw [declarations_block]
    apply (List.filterMap_cons_some (declaration?_struct word rfl)).trans
    exact congrArg (_ :: ·) (declarations_cons silent_close [])

/-- The code of a layout uses an imported name. -/
def uses (l : Layout) (i : Import) : Bool :=
  i.kind = .parent || l.fields.any (namesType i.type.name)

/-- The names of generated code that the module of a message uses. -/
def usedNames (l : Layout) : List String := (l.imports.filter (uses l)).map (·.type.name)

theorem importPath_eq_none {settings : Settings} {l : Layout} {i : Import} (h : ¬ uses l i) :
    importPath settings l i = none := by
  cases i with
  | mk kind t =>
    cases kind with
    | parent => exact absurd rfl h
    | custom => exact if_neg (by simpa [uses] using h)

/-- The path of a used import leads to its name. -/
theorem exists_importPath (settings : Settings) {l : Layout} {i : Import} (h : uses l i) :
    ∃ root, importPath settings l i = some (root ++ "::" ++ i.type.name) := by
  cases i with
  | mk kind t =>
    cases kind with
    | parent => exact ⟨_, rfl⟩
    | custom => exact ⟨_, if_pos (by simpa [uses] using h)⟩

theorem declarations_usedLines (settings : Settings) (l : Layout) {is : List Import}
    (words : ∀ i ∈ is, IsWord i.type.name) :
    declarations ((is.filterMap (importPath settings l)).map useLine) =
      ((is.filter (uses l)).map (·.type.name)).map .item := by
  induction is with
  | nil => rfl
  | cons i is ih =>
    obtain ⟨word, words⟩ := List.forall_mem_cons.1 words
    by_cases used : uses l i
    · obtain ⟨root, path⟩ := exists_importPath settings used
      rw [List.filterMap_cons_some path, List.map_cons, declarations,
        List.filterMap_cons_some (declaration?_useLine root (word.not_mem (by decide))),
        List.filter_cons_of_pos used]
      exact congrArg (_ :: ·) (ih words)
    · rw [List.filterMap_cons_none (importPath_eq_none used), List.filter_cons_of_neg used]
      exact ih words

theorem declarations_importLines (settings : Settings) {l : Layout} (h : l.Worded) :
    declarations (importLines settings l) = (runtimeNames l ++ usedNames l).map .item := by
  have plain : ∀ name ∈ runtimeNames l, ':' ∉ name.toList := by
    unfold runtimeNames
    split <;> decide
  have runtime := declarations_runtimeLines settings plain
  have used := declarations_usedLines settings l h.imports
  rw [importLines, declarations_spaced, List.flatMap_cons, List.flatMap_singleton, runtime, used,
    List.map_append, usedNames]

theorem silent_header (m : MessageDecl) :
    Silent ("// `" ++ m.name ++ "`: generated by protogen, do not edit.") :=
  ((Silent.literal "// `" rfl fun _ => rfl).append _).append _

theorem declarations_defaultLines (m : MessageDecl) (l : Layout) :
    declarations (defaultLines m l) = [] :=
  have opening := Silent.literal "impl Default for " rfl fun _ => rfl
  declarations_of_silent ((opening.append _).append _) _

theorem declarations_idLines (m : MessageDecl) (p : Program) : declarations (idLines m p) = [] :=
  have opening := Silent.literal "impl " rfl fun _ => rfl
  declarations_of_silent ((opening.append _).append _) _

theorem declarations_codecLines (m : MessageDecl) (p : Program) :
    declarations (codecLines m p) = [] :=
  have opening := Silent.literal "impl Codec for " rfl fun _ => rfl
  declarations_of_silent ((opening.append _).append _) _

theorem declarations_messageLines (m : MessageDecl) : declarations (messageLines m) = [] :=
  have opening := Silent.literal "impl NetworkMessage for " rfl fun _ => rfl
  declarations_of_silent ((opening.append _).append _) _

theorem declarations_moduleLines (settings : Settings) {m : MessageDecl} (word : IsWord m.name)
    {l : Layout} (h : l.Worded) (p : Program) :
    declarations (moduleLines settings m l p) =
      (runtimeNames l ++ usedNames l ++ [m.name]).map .item := by
  simp only [moduleLines, declarations_spaced, List.flatMap_cons, List.flatMap_nil,
    declarations_importLines settings h, declarations_structLines word,
    declarations_defaultLines, declarations_idLines, declarations_codecLines,
    declarations_messageLines, List.append_nil, List.map_append, List.map_singleton]
  rw [declarations_cons (silent_header m)]
  rfl

/-! ## Modules of the run -/

section Dispatch

variable {settings : Settings} (neat : settings.Neat) {ms : List MessageDecl}
  (plain : ∀ m ∈ ms, Unbroken m.name)

/-- The plan whose entries are those of the given messages. -/
def planOf (settings : Settings) (ms : List MessageDecl) : DispatchPlan :=
  ⟨ms.map (DispatchEntry.ofMessage settings)⟩

include neat plain

theorem neat_tableLines : Neat (tableLines settings (planOf settings ms).entries) := by
  unfold tableLines planOf
  split
  · decide
  · rw [neat_block, neat_map, List.forall_mem_map]
    refine ⟨by decide, fun m hm => ?_, by decide⟩
    have path := neat.messagePath (plain m hm) m.package
    simp +decide [Line.outer, DispatchEntry.ofMessage, neat.runtimeCrate, path,
      unbroken_toString_short]

theorem neat_registryLines : Neat (registryLines settings (planOf settings ms)) := by
  have imports : Neat (["MessageFactory", "MessageRegistry", "Result"].map fun name =>
      .outer ("use " ++ settings.runtimeCrate ++ "::" ++ name ++ ";")) := by
    simp +decide [Line.outer, neat.runtimeCrate]
  have table := neat_tableLines neat plain
  simp only [registryLines, neat_spaced, List.forall_mem_cons, neat_cons, neat_nil, imports, table,
    neat_block, and_true, true_and]
  refine ⟨by decide, by decide, ⟨by decide, by decide, by decide, by decide⟩,
    List.forall_mem_nil _⟩

omit neat plain in
theorem registryLines_ne_nil (plan : DispatchPlan) : registryLines settings plan ≠ [] :=
  List.ne_nil_of_mem (subset_spaced List.mem_cons_self List.mem_cons_self)

theorem neat_indexLines : Neat (indexLines (planOf settings ms)) := by
  have exports : Neat ((planOf settings ms).entries.map fun e =>
      .outer ("pub use " ++ e.path ++ ";")) := by
    rw [neat_map, planOf, List.forall_mem_map]
    intro m hm
    have path := neat.messagePath (plain m hm) m.package
    simp +decide [Line.outer, DispatchEntry.ofMessage, path]
  simp only [indexLines, neat_spaced, List.forall_mem_cons, neat_cons, neat_nil, exports, and_true,
    true_and]
  exact ⟨by decide, List.forall_mem_nil _⟩

omit neat plain in
theorem indexLines_ne_nil (plan : DispatchPlan) : indexLines plan ≠ [] :=
  List.ne_nil_of_mem (subset_spaced List.mem_cons_self List.mem_cons_self)

omit neat plain in
theorem declarations_indexLines (words : ∀ m ∈ ms, IsWord m.name) :
    declarations (indexLines (planOf settings ms)) = (ms.map (·.name)).map .item := by
  have exports : declarations ((planOf settings ms).entries.map fun e =>
      .outer ("pub use " ++ e.path ++ ";")) = (ms.map (·.name)).map .item := by
    rw [planOf, List.map_map]
    refine declarations_map _ _ fun m hm => ?_
    exact declaration?_pubUseLine (settings.messageModule m.package m.name)
      ((words m hm).not_mem (by decide))
  have header :=
    Silent.literal "// Message index: generated by protogen, do not edit." rfl fun _ => rfl
  rw [indexLines, declarations_spaced, List.flatMap_cons, List.flatMap_singleton, exports,
    declarations_cons header]
  rfl

end Dispatch

theorem declarations_registryLines (settings : Settings) (plan : DispatchPlan) :
    declarations (registryLines settings plan) =
      ["MessageFactory", "MessageRegistry", "Result"].map .item := by
  have line (name : String) : Line.outer ("use " ++ settings.runtimeCrate ++ "::" ++ name ++ ";") =
      useLine (settings.runtimeCrate ++ "::" ++ name) := by
    simp only [useLine, String.append_assoc]
  have header :=
    Silent.literal "// Message dispatch table: generated by protogen, do not edit." rfl fun _ => rfl
  have comment :=
    Silent.literal
      "/// Every message of the protocol as `(protocol id, factory)`, in schema order."
      rfl fun _ => rfl
  have comment' :=
    Silent.literal "/// Builds the runtime dispatch table from `MESSAGES`." rfl fun _ => rfl
  have function :=
    Silent.literal "pub fn message_registry() -> Result<MessageRegistry> \x7b" rfl fun _ => rfl
  have table : declarations (tableLines settings plan.entries) = [] := by
    have empty :=
      Silent.literal "pub const MESSAGES: &[(u16, MessageFactory)] = &[];" rfl fun _ => rfl
    have opening :=
      Silent.literal "pub const MESSAGES: &[(u16, MessageFactory)] = &[" rfl fun _ => rfl
    have closing := Silent.literal "];" rfl fun _ => rfl
    unfold tableLines
    split
    · exact declarations_cons empty []
    · rw [declarations_block]
      exact (declarations_cons opening _).trans (declarations_cons closing [])
  simp only [registryLines, declarations_spaced, List.flatMap_cons, List.flatMap_nil, line]
  rw [declarations_cons header, declarations_runtimeLines settings (by decide),
    declarations_cons comment, table, declarations_cons comment', declarations_of_silent function]
  rfl

end Source

end WireCodec
