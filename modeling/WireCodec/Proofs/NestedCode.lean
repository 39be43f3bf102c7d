import WireCodec.Proofs.ExactImports
import WireCodec.Proofs.Indentation

/-!
# Nested code

Generated code is indented as its brackets ask for: the source of each artifact and the tree of
modules (`Output.wellIndented_of_generate`). Each part of a module is put together from statements
and blocks, whatever the names in it are, so that only a line feed in a name, a package or a path
could break a line.
-/

namespace WireCodec

namespace Source

/-! ## Parts of a module -/

theorem nested_useLines {α : Type} {path : α → String} (xs : List α) :
    Nested (xs.map fun x => useLine (path x)) :=
  nested_map fun x _ => by simp +decide

theorem nested_importLines (settings : Settings) (l : Layout) : Nested (importLines settings l) :=
  nested_spaced <|
    List.forall_mem_cons.2 ⟨nested_useLines _, List.forall_mem_singleton.2 (nested_useLines _)⟩

theorem isStatement_titleText (m : MessageDecl) : IsStatement (titleText m) := by
  unfold titleText
  split <;> simp +decide

theorem nested_structLines (m : MessageDecl) (l : Layout) : Nested (structLines m l) := by
  have title : Nested [.outer (titleText m), .outer "#[derive(Debug)]"] :=
    (nested_line (isStatement_titleText m)).append (nested_line (.literal rfl rfl))
  refine title.append ?_
  split
  · exact nested_line (by simp +decide)
  · refine nested_block (by simp +decide) ?_ (by decide)
    refine ((nested_map ?_).append (nested_map ?_)).append (nested_map ?_)
    · exact fun p _ => by simp +decide
    · exact fun f _ => by simp +decide
    · exact fun f _ => by simp +decide

theorem startsLine_of_isSegmentChar {c : Char} (h : IsSegmentChar c) : startsLine false c := by
  have apart (d : Char) (other : ¬ IsSegmentChar d) : c ≠ d := by
    rintro rfl
    exact other h
  simp [startsLine, Char.isWhitespace, isClosing, apart ' ' (by decide), apart '\t' (by decide),
    apart '\r' (by decide), apart '\n' (by decide), apart '\x7d' (by decide),
    apart ']' (by decide)]

theorem firstIs_of_isSegment {ident : String} (h : IsSegment ident) :
    FirstIs (startsLine false) ident ∨ ident = "" := by
  cases chars : ident.toList with
  | nil => exact .inr (String.toList_eq_nil_iff.1 chars)
  | cons c cs =>
    have segment : IsSegmentChar c := h c (by simp [chars])
    left
    rw [FirstIs, chars]
    exact startsLine_of_isSegmentChar segment

theorem nested_defaultLines (m : MessageDecl) {P : String → Prop} {l : Layout} (h : l.Named P) :
    Nested (defaultLines m l) := by
  refine nested_block (by simp +decide) (nested_block (.literal rfl rfl) ?_ (by decide)) (by decide)
  split
  · exact nested_line (.literal rfl rfl)
  · refine nested_block (.literal rfl rfl) ?_ (by decide)
    refine ((nested_map ?_).append (nested_map ?_)).append (nested_map ?_)
    · exact fun p _ => by simp +decide
    · exact fun f hf => by simp +decide [firstIs_of_isSegment (h.flags f hf)]
    · exact fun f hf => by simp +decide [firstIs_of_isSegment (h.fields f hf).ident]

theorem nested_idLines (m : MessageDecl) (p : Program) : Nested (idLines m p) :=
  nested_block (by simp +decide) (nested_line (by simp +decide)) (by decide)

theorem nested_messageLines (m : MessageDecl) : Nested (messageLines m) := by
  refine nested_block (by simp +decide) (nested_spaced ?_) (by decide)
  refine List.forall_mem_cons.2 ⟨?_, List.forall_mem_singleton.2 ?_⟩
  · exact nested_block (.literal rfl rfl) (nested_line (.literal rfl rfl)) (by decide)
  · exact nested_block (.literal rfl rfl) (nested_line (.literal rfl rfl)) (by decide)

/-! ## Programs -/

theorem nested_resetLines (op : Op) : Nested (resetLines op) := by
  unfold resetLines
  split
  · exact nested_line (by decide)
  · exact nested_line (by simp +decide [fieldText])
  · exact nested_line (by simp +decide [fieldText])
  · exact nested_nil

theorem nested_writeLoop (field : String) {body : List Line} (h : Nested body) :
    Nested (writeLoop field body) :=
  (nested_line (by simp +decide)).append (nested_block (by simp +decide [fieldText]) h (by decide))

theorem nested_writeLines (op : Op) : Nested (writeLines op) := by
  cases op with
  | delegateParent => exact nested_line (by decide)
  | writeFlag field bit => exact nested_line (by simp +decide)
  | writePrimitive field method p => exact nested_line (by simp +decide)
  | writeObject field => exact nested_line (by simp +decide [fieldText])
  | writeTypedObject field =>
    exact (nested_line (by simp +decide)).append (nested_line (by simp +decide [fieldText]))
  | writePrimitiveVector field method p =>
    exact nested_writeLoop field (nested_line (by simp +decide))
  | writeObjectVector field isOpen =>
    have element : Nested [.outer "e.serialize(writer)?;"] := nested_line (.literal rfl rfl)
    cases isOpen with
    | true => exact nested_writeLoop field ((nested_line (.literal rfl rfl)).append element)
    | false => exact nested_writeLoop field element
  | _ => exact nested_nil

theorem nested_readLoop {body : List Line} (h : Nested body) : Nested (readLoop body) :=
  nested_block (.literal rfl rfl) h (by decide)

theorem nested_readLines (op : Op) : Nested (readLines op) := by
  cases op with
  | delegateParent => exact nested_line (by decide)
  | readFlag field bit => exact nested_line (by simp +decide [fieldText])
  | readPrimitive field method p => exact nested_line (by simp +decide [fieldText])
  | readObject field t =>
    exact (nested_line (by simp +decide [fieldText])).append
      (nested_line (by simp +decide [fieldText]))
  | readTypedObject field =>
    exact (nested_line (by simp +decide [fieldText])).append
      (nested_line (by simp +decide [fieldText]))
  | readPrimitiveVector field method p =>
    exact nested_readLoop (nested_line (by simp +decide [fieldText]))
  | readObjectVector field t isOpen =>
    exact nested_readLoop ((nested_line (by simp +decide)).append
      ((nested_line (.literal rfl rfl)).append (nested_line (by simp +decide [fieldText]))))
  | _ => exact nested_nil

theorem nested_codecLines (m : MessageDecl) (p : Program) : Nested (codecLines m p) := by
  refine nested_block (by simp +decide) (nested_spaced ?_) (by decide)
  have done : Nested [.outer "Ok(())"] := nested_line (.literal rfl rfl)
  refine List.forall_mem_cons.2 ⟨?_, List.forall_mem_cons.2 ⟨?_, List.forall_mem_singleton.2 ?_⟩⟩
  · unfold resetFunction
    split
    · exact nested_line (.literal rfl rfl)
    · exact nested_block (.literal rfl rfl) (nested_flatMap fun op _ => nested_resetLines op)
        (by decide)
  · exact nested_block (by simp +decide)
      ((nested_flatMap fun op _ => nested_writeLines op).append done) (by decide)
  · exact nested_block (by simp +decide)
      ((nested_flatMap fun op _ => nested_readLines op).append done) (by decide)

theorem nested_moduleLines (settings : Settings) (m : MessageDecl) {P : String → Prop} {l : Layout}
    (h : l.Named P) (p : Program) : Nested (moduleLines settings m l p) := by
  refine nested_spaced ?_
  simp only [List.forall_mem_cons]
  exact ⟨nested_line (by simp +decide), nested_importLines settings l, nested_structLines m l,
    nested_defaultLines m h, nested_idLines m p, nested_codecLines m p, nested_messageLines m,
    List.forall_mem_nil _⟩

/-! ## Modules of the run -/

theorem nested_registryLines (settings : Settings) (plan : DispatchPlan) :
    Nested (registryLines settings plan) := by
  have table : Nested (tableLines settings plan.entries) := by
    unfold tableLines
    split
    · exact nested_line (.literal rfl rfl)
    · exact nested_block (.literal rfl rfl) (nested_map fun e _ => by simp +decide) (by decide)
  refine nested_spaced ?_
  simp only [List.forall_mem_cons]
  refine ⟨nested_line (.literal rfl rfl), nested_map fun name _ => by simp +decide,
    (nested_line (.literal rfl rfl)).append table, (nested_line (.literal rfl rfl)).append ?_,
    List.forall_mem_nil _⟩
  exact nested_block (.literal rfl rfl) (nested_line (.literal rfl rfl)) (by decide)

theorem nested_indexLines (plan : DispatchPlan) : Nested (indexLines plan) :=
  nested_spaced <| List.forall_mem_cons.2 ⟨nested_line (.literal rfl rfl),
    List.forall_mem_singleton.2 (nested_map fun e _ => by simp +decide)⟩

end Source

/-! ## Texts without line feeds -/

namespace Schema

/-- Names stay on their lines, as identifiers do, and neither packages nor the paths of the settings
have a line feed. -/
structure HasNoBreak (s : Schema) (settings : Settings) : Prop where
  names : ∀ m ∈ s.messages, Unbroken m.name
  types : ∀ t ∈ s.types, Unbroken t.name
  packages : ∀ m ∈ s.messages, OneLine m.package
  messagesRoot : OneLine settings.messagesRoot
  typesRoot : OneLine settings.typesRoot
  runtimeCrate : OneLine settings.runtimeCrate

end Schema

section Paths

variable {settings : Settings} {name : String} (plain : OneLine name)

include plain

theorem oneLine_messagePath (root : OneLine settings.messagesRoot) (package : String) :
    OneLine (settings.messagePath package name) := by
  have module : OneLine (settings.messageModule package name) :=
    not_mem_joinPath (by decide) (by decide) root
      (isSegment_messageSegments settings package name)
  simp +decide [Settings.messagePath, module, plain]

theorem oneLine_typePath (root : OneLine settings.typesRoot) (package : String) :
    OneLine (settings.typePath package name) := by
  have module :
      OneLine (joinPath settings.typesRoot (packageSegments settings.packageRoot package)) :=
    not_mem_joinPath (by decide) (by decide) root
      (isSegment_packageSegments settings.packageRoot package)
  simp +decide [Settings.typePath, module, plain]

end Paths

namespace Source

section Module

variable {s : Schema} {settings : Settings} (plain : s.HasNoBreak settings)

include plain

theorem oneLine_importLines {l : Layout} (h : l.Named Unbroken) :
    ∀ line ∈ importLines settings l, OneLine line.text := by
  have runtime : ∀ name ∈ runtimeNames l, OneLine name := by
    unfold runtimeNames
    split <;> decide
  refine (forall_mem_spaced (by decide)).2 (List.forall_mem_cons.2
    ⟨List.forall_mem_map.2 fun name mem => ?_, List.forall_mem_singleton.2
      (List.forall_mem_map.2 fun path used => ?_)⟩)
  · simp +decide [useLine, Line.outer, plain.runtimeCrate, runtime name mem]
  · obtain ⟨i, hi, found⟩ := List.mem_filterMap.1 used
    have name := (h.imports i hi).oneLine
    have path : OneLine path := by
      unfold importPath at found
      split at found
      · cases found
        exact oneLine_messagePath name plain.messagesRoot i.type.package
      · split_ifs at found
        cases found
        exact oneLine_typePath name plain.typesRoot i.type.package
    simp +decide [useLine, Line.outer, path]

theorem oneLine_moduleLines {m : MessageDecl} (hm : m ∈ s.messages) {l : Layout} (sound : l.Sound)
    (h : l.Named Unbroken) :
    ∀ line ∈ moduleLines settings m l (.ofLayout m l), OneLine line.text := by
  have name := plain.names m hm
  have title : OneLine (titleText m) := by
    unfold titleText
    split <;> simp +decide [plain.packages m hm, name.oneLine, (unbroken_toString_short _).oneLine]
  have struct : Neat (belowTitle { m with package := "" } l) := fun line hl =>
    neat_structLines (m := { m with package := "" }) name sound h (show Unbroken "" by decide) line
      (List.mem_of_mem_tail hl)
  refine (forall_mem_spaced (by decide)).2 ?_
  simp only [List.forall_mem_cons]
  refine ⟨⟨by simp +decide [Line.outer, name.oneLine], List.forall_mem_nil _⟩,
    oneLine_importLines plain h, ?_, (neat_defaultLines name sound h).oneLine,
    (neat_idLines name _).oneLine, (neat_codecLines name sound h).oneLine,
    (neat_messageLines name).oneLine, List.forall_mem_nil _⟩
  rw [structLines_eq]
  exact List.forall_mem_cons.2 ⟨title, struct.oneLine⟩

theorem oneLine_registryLines :
    ∀ line ∈ registryLines settings (planOf settings s.messages), OneLine line.text := by
  have table : ∀ line ∈ tableLines settings (planOf settings s.messages).entries,
      OneLine line.text := by
    unfold tableLines planOf
    split
    · decide
    · refine forall_mem_block.2 ⟨by decide, ?_, by decide⟩
      rw [List.forall_mem_map, List.forall_mem_map]
      intro m hm
      have path := oneLine_messagePath (plain.names m hm).oneLine plain.messagesRoot m.package
      simp +decide [Line.outer, DispatchEntry.ofMessage, plain.runtimeCrate, path,
        (unbroken_toString_short _).oneLine]
  refine (forall_mem_spaced (by decide)).2 ?_
  simp only [List.forall_mem_cons]
  refine ⟨by decide, ?_, ⟨by decide, table⟩, by decide, List.forall_mem_nil _⟩
  simp +decide [Line.outer, plain.runtimeCrate]

theorem oneLine_indexLines :
    ∀ line ∈ indexLines (planOf settings s.messages), OneLine line.text := by
  refine (forall_mem_spaced (by decide)).2 ?_
  simp only [List.forall_mem_cons]
  refine ⟨by decide, ?_, List.forall_mem_nil _⟩
  rw [planOf, List.forall_mem_map, List.forall_mem_map]
  intro m hm
  have path := oneLine_messagePath (plain.names m hm).oneLine plain.messagesRoot m.package
  simp +decide [Line.outer, DispatchEntry.ofMessage, path]

end Module

end Source

/-! ## Artifacts and the tree -/

/-- The source of an artifact is printed from nested lines without line feeds, and the artifact is
placed under segments and exported by a name without line feeds. -/
structure Artifact.PrintsNested (a : Artifact) : Prop where
  segments : ∀ segment ∈ a.segments, IsSegment segment
  source : ∃ ls, a.source = Source.print ls ∧ Source.Nested ls ∧ ∀ l ∈ ls, OneLine l.text
  exported : ∀ name, a.reexport = some name → OneLine name

theorem printsNested_of_generate {s : Schema} {settings : Settings} {o : Output}
    (h : s.generate settings = .ok o) (plain : s.HasNoBreak settings) :
    ∀ a ∈ o.artifacts, a.PrintsNested := by
  obtain ⟨-, each, registry, index⟩ := Schema.generate_eq_ok h
  refine List.forall_mem_append.2 ⟨fun a ha => ?_, ?_⟩
  · obtain ⟨m, hm, l, planned, rfl⟩ := exists_of_mem_right each ha
    have named := Layout.named_of_plan (fun p hp _ => plain.names p hp) plain.types planned
    refine ⟨isSegment_messageSegments settings m.package m.name,
      ⟨_, rfl, Source.nested_moduleLines settings m named _,
        Source.oneLine_moduleLines plain hm (Layout.sound_of_plan planned) named⟩, ?_⟩
    rintro name ⟨⟩
    exact (plain.names m hm).oneLine
  · rw [List.forall_mem_cons, List.forall_mem_singleton, registry, index]
    exact ⟨⟨List.forall_mem_singleton.2 (by decide), ⟨_, rfl,
        Source.nested_registryLines settings _, Source.oneLine_registryLines plain⟩, nofun⟩,
      ⟨List.forall_mem_singleton.2 (by decide), ⟨_, rfl, Source.nested_indexLines _,
        Source.oneLine_indexLines plain⟩, nofun⟩⟩

namespace Artifact.PrintsNested

open Source

variable {a : Artifact} (h : a.PrintsNested)

include h

theorem wellIndented : WellIndented a.source := by
  obtain ⟨ls, source, nested, single⟩ := h.source
  rw [source]
  exact wellIndented_print nested single

/-- The lines of the source, as they are read back for the tree. -/
theorem linesOf_source :
    Nested (linesOf a.source) ∧ ∀ l ∈ linesOf a.source, OneLine l.text := by
  obtain ⟨ls, source, nested, single⟩ := h.source
  rw [source, linesOf_print_of_oneLine single nested.trimmed]
  refine ⟨nested_flat nested, List.forall_mem_map.2 fun l hl feed => ?_⟩
  rw [Line.flat, Line.outer, String.toList_ofList] at feed
  exact single l hl ((Line.mem_chars feed).resolve_left (by decide))

end Artifact.PrintsNested

namespace Placed

open Source

variable {ps : List Placed}

theorem nested_ownLines (h : ∀ p ∈ ps, Nested (linesOf p.artifact.source)) :
    Nested (ownLines ps) := by
  unfold ownLines
  split
  · rename_i p last
    exact h p (mem_of_own? last).1
  · exact nested_nil

theorem nested_exportLines (ps : List Placed) : Nested (exportLines ps) := by
  refine nested_of_forall fun l hl => ?_
  obtain ⟨p, -, exported⟩ := List.mem_filterMap.1 hl
  split at exported
  · cases exported
    exact nested_line (by simp +decide)
  · cases exported

theorem nested_treeLines {height : Nat} (filled : ∀ p ∈ ps, linesOf p.artifact.source ≠ [])
    (h : ∀ p ∈ ps, Nested (linesOf p.artifact.source)) : Nested (treeLines height ps) := by
  induction height generalizing ps with
  | zero => exact nested_ownLines h
  | succ height ih =>
    rw [treeLines_succ filled]
    refine nested_spaced (List.forall_mem_append.2 ⟨?_, List.forall_mem_map.2 fun name _ => ?_⟩)
    · exact List.forall_mem_cons.2
        ⟨nested_ownLines h, List.forall_mem_singleton.2 (nested_exportLines ps)⟩
    · refine nested_block (by simp +decide) (ih ?_ ?_) (by decide)
      · exact fun p hp => filled ⟨name :: p.segments, p.artifact⟩ (mem_below.1 hp)
      · exact fun p hp => h ⟨name :: p.segments, p.artifact⟩ (mem_below.1 hp)

end Placed

namespace Output

open Source

/-- The tree of modules and the source of each artifact are indented as their brackets ask for. -/
theorem wellIndented_of_generate {s : Schema} {settings : Settings} {o : Output}
    (h : s.generate settings = .ok o) (plain : s.HasNoBreak settings) :
    WellIndented o.moduleTree ∧ ∀ a ∈ o.artifacts, WellIndented a.source := by
  have prints := printsNested_of_generate h plain
  have own : ∀ p ∈ o.placed,
      p.artifact.PrintsNested ∧ ∀ segment ∈ p.segments, IsSegment segment := by
    rw [placed_of_generate h]
    exact List.forall_mem_map.2 fun a ha => ⟨prints a ha, (prints a ha).segments⟩
  have filled := placed_filled h
  rw [moduleTree_of_generate h]
  refine ⟨wellIndented_print (nested_spaced ?_) ((forall_mem_spaced (by decide)).2 ?_),
    fun a ha => (prints a ha).wellIndented⟩
  · exact List.forall_mem_cons.2 ⟨nested_line (.literal rfl rfl), List.forall_mem_singleton.2 <|
      Placed.nested_treeLines filled fun p hp => (own p hp).1.linesOf_source.1⟩
  · refine List.forall_mem_cons.2 ⟨by decide, List.forall_mem_singleton.2 <|
      Placed.forall_mem_treeLines (by decide) (by decide) (fun name segment => ?_)
        (fun p hp => (own p hp).2) filled (fun p hp => (own p hp).1.linesOf_source.2)
        fun p hp leaf name segment named => ?_⟩
    · simp +decide [segment.unbroken.oneLine]
    · simp +decide [segment.unbroken.oneLine, (own p hp).1.exported name named]

/-- Two messages, of which one is in a package and has a parent and fields. -/
theorem wellIndented_of_generate_raid :
    ∃ o, raidSchema.generate {} = .ok o ∧ WellIndented o.moduleTree ∧
      ∀ a ∈ o.artifacts, WellIndented a.source := by
  obtain ⟨o, generated⟩ := exists_of_isOk (show (raidSchema.generate {}).isOk by decide +kernel)
  exact ⟨o, generated, wellIndented_of_generate generated
    ⟨by decide, by decide, by decide, by decide, by decide, by decide⟩⟩

end Output

end WireCodec
