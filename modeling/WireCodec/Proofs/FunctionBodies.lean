import WireCodec.Proofs.ExactImports
import WireCodec.Proofs.Indentation

/-!
# Bodies of functions

The functions that reset, write and read a message have the statements of their programs, operation
by operation; every operation that is not idle has one. A body uses its parameters as identifiers of
their own exactly if they are declared without an underscore (`Source.PrintsPrograms`), whatever the
fields are called.
-/

namespace WireCodec

theorem Layout.mem_program {l : Layout} {onFlag : FlagSlot → Op} {onField : FieldSlot → Op}
    {op : Op} (h : op ∈ l.program onFlag onField) : op = .nop ∨ op = .delegateParent ∨
      (∃ f ∈ l.flags, op = onFlag f) ∨ ∃ f ∈ l.fields, op = onField f := by
  have orIdle {ops : List Op} (h : op ∈ if ops.isEmpty then [.nop] else ops) :
      op = .nop ∨ op ∈ ops := by
    split at h
    · exact .inl (List.mem_singleton.1 h)
    · exact .inr h
  refine (orIdle h).imp_right fun h => ?_
  rw [List.mem_append, List.mem_append, List.mem_map, List.mem_map] at h
  rcases h with (parent | ⟨f, hf, rfl⟩) | ⟨f, hf, rfl⟩
  · split at parent
    · exact .inl (List.mem_singleton.1 parent)
    · exact nomatch parent
  · exact .inr (.inl ⟨f, hf, rfl⟩)
  · exact .inr (.inr ⟨f, hf, rfl⟩)

namespace Source

/-! ## Names that a text uses -/

/-- The members of a chain without the fields of `self`. -/
def withoutFields : List (List Char) → List (List Char)
  | owner :: field :: members =>
    if owner = "self".toList then owner :: withoutFields members
    else owner :: withoutFields (field :: members)
  | members => members

/-- The members of the chains of a text without the fields of `self`; some of them are empty. -/
def bareNames (cs : List Char) : List (List Char) :=
  (cs.splitOnP isBreak).flatMap fun chain => withoutFields (chain.splitOn '.')

/-- The text has the name as an identifier that is no field of `self`. -/
def UsesName (name text : String) : Prop := name.toList ∈ bareNames text.toList

instance (name text : String) : Decidable (UsesName name text) :=
  inferInstanceAs (Decidable (_ ∈ _))

theorem withoutFields_subset (members : List (List Char)) : withoutFields members ⊆ members := by
  fun_induction withoutFields members with
  | case1 field members ih =>
    exact List.cons_subset_cons _ (List.Subset.trans ih (List.subset_cons_self _ _))
  | case2 owner field members _ ih => exact List.cons_subset_cons _ ih
  | case3 members => exact List.Subset.refl _

/-- At a break a text is read afresh. -/
theorem bareNames_append {c : Char} (sep : isBreak c) (xs ys : List Char) :
    bareNames (xs ++ c :: ys) = bareNames xs ++ bareNames ys := by
  rw [bareNames, List.splitOnP_append_cons _ _ sep, List.flatMap_append]
  rfl

theorem not_isBreak_intercalate {members : List String} (h : ∀ x ∈ members, IsWord x) :
    ∀ c ∈ ['.'].intercalate (members.map (·.toList)), isBreak c = false := by
  induction members with
  | nil => exact nofun
  | cons x members ih =>
    obtain ⟨first, others⟩ := List.forall_mem_cons.1 h
    cases members with
    | nil => simpa using not_isBreak_of_isWord first
    | cons y members =>
      rw [List.map_cons, List.map_cons, List.intercalate_cons_cons]
      refine List.forall_mem_append.2 ⟨?_, ih others⟩
      exact List.forall_mem_append.2 ⟨not_isBreak_of_isWord first, List.forall_mem_singleton.2 rfl⟩

/-- The names of a chain stand between its dots. -/
theorem bareNames_intercalate {members : List String} (h : ∀ x ∈ members, IsWord x)
    (filled : members ≠ []) :
    bareNames (['.'].intercalate (members.map (·.toList))) =
      withoutFields (members.map (·.toList)) := by
  have undotted : ∀ xs ∈ members.map (·.toList), '.' ∉ xs := by
    refine List.forall_mem_map.2 fun x hx mem => ?_
    exact absurd (h x hx '.' mem) (by decide)
  rw [bareNames, List.splitOnP_eq_singleton (not_isBreak_intercalate h), List.flatMap_singleton,
    List.splitOn_intercalate '.' undotted (by simpa using filled)]

/-- A name with a character that a text does not have is not used in it. -/
theorem not_usesName_of_not_mem {name text : String} {c : Char} (hc : c ∈ name.toList)
    (absent : c ∉ text.toList) : ¬ UsesName name text := by
  intro used
  obtain ⟨chain, hchain, mem⟩ := List.mem_flatMap.1 used
  have inside := subset_of_mem_splitOnP (withoutFields_subset _ mem)
  exact absent (subset_of_mem_splitOnP hchain (inside hc))

section Uses

variable {name : String} (filled : name ≠ "")

include filled

theorem not_usesName_empty : ¬ UsesName name "" := by
  intro used
  exact filled (String.toList_eq_nil_iff.1 (List.mem_singleton.1 used))

/-- What is used on either side of a break is used in the whole text. -/
theorem usesName_append {a b : String} (cut : LastIs isBreak a ∨ FirstIs isBreak b) :
    UsesName name (a ++ b) ↔ UsesName name a ∨ UsesName name b := by
  have none : name.toList ∉ bareNames [] := not_usesName_empty filled
  unfold UsesName
  rw [String.toList_append]
  rcases cut with cut | cut
  · obtain ⟨c, last, sep⟩ := (Option.any_eq_true _ _).1 cut
    obtain ⟨xs, split⟩ := List.getLast?_eq_some_iff.1 last
    rw [split, List.append_assoc, List.singleton_append, bareNames_append sep,
      bareNames_append sep, List.mem_append, List.mem_append, or_iff_left none]
  · obtain ⟨c, first, sep⟩ := (Option.any_eq_true _ _).1 cut
    obtain ⟨ys, split⟩ := List.head?_eq_some_iff.1 first
    rw [split, bareNames_append sep, ← List.nil_append (c :: ys), bareNames_append sep,
      List.mem_append, List.mem_append, or_iff_right none]

theorem UsesName.before {a b : String} (used : UsesName name a)
    (cut : LastIs isBreak a ∨ FirstIs isBreak b) : UsesName name (a ++ b) :=
  (usesName_append filled cut).2 (.inl used)

/-- A name that stands behind a break of a literal. -/
theorem UsesName.behind {front literal : String} (a : String) {b : String} (used : UsesName name b)
    (split : literal = a ++ b) (sep : LastIs isBreak a) : UsesName name (front ++ literal) := by
  rw [split, ← String.append_assoc]
  exact (usesName_append filled (.inl (lastIs_append.2 (.inl sep)))).2 (.inr used)

theorem usesName_print {ls : List Line} :
    UsesName name (print ls) ↔ ∃ l ∈ ls, UsesName name l.text := by
  have none : name.toList ∉ bareNames [] := not_usesName_empty filled
  have indented (n : Nat) (cs : List Char) :
      name.toList ∈ bareNames (.replicate n ' ' ++ cs) ↔ name.toList ∈ bareNames cs := by
    induction n with
    | zero => rfl
    | succ n ih =>
      rw [List.replicate_succ, List.cons_append, ← List.nil_append (' ' :: _),
        bareNames_append (by decide), List.mem_append, or_iff_right none, ih]
  have shown (l : Line) : name.toList ∈ bareNames l.chars ↔ UsesName name l.text := by
    unfold Line.chars Line.shift
    split
    · rename_i empty
      rw [UsesName, empty]
    · exact indented _ _
  induction ls with
  | nil => exact iff_of_false (not_usesName_empty filled) (by simp)
  | cons l ls ih =>
    have first : (print (l :: ls)).toList = l.chars ++ '\n' :: (print ls).toList := by
      simp [print, Line.toList_print]
    rw [UsesName, first, bareNames_append (by decide), List.mem_append, shown]
    simp only [List.mem_cons, exists_eq_or_imp]
    exact or_congr_right ih

end Uses

/-! ## Statements -/

theorem usesName_owner {owner member : String} (h : IsWord owner) (h' : IsWord member) :
    UsesName owner (owner ++ "." ++ member) := by
  have chain : (owner ++ "." ++ member).toList =
      ['.'].intercalate ([owner, member].map (·.toList)) := by simp
  rw [UsesName, chain, bareNames_intercalate (by simp [h, h']) (List.cons_ne_nil _ _)]
  simp only [List.map_cons, List.map_nil, withoutFields]
  split <;> exact List.mem_cons_self

/-- Every statement that writes uses the writer. -/
theorem usesName_writer {op : Op} (writes : writeLines op ≠ []) :
    ∃ l ∈ writeLines op, UsesName "writer" l.text := by
  have filled : "writer" ≠ "" := by decide
  -- in a loop it is the statement in front that writes the count
  have counted (field : String) (body : List Line) :
      ∃ l ∈ writeLoop field body, UsesName "writer" l.text := by
    refine ⟨_, List.mem_cons_self, ?_⟩
    simp only [Line.outer, String.append_assoc]
    exact .before filled (by decide) (.inl (by decide))
  cases op with
  | delegateParent => decide
  | writeFlag field bit =>
    refine ⟨_, List.mem_cons_self, ?_⟩
    simp only [Line.outer, String.append_assoc]
    exact .before filled (by decide) (.inl (by decide))
  | writePrimitive field method p =>
    have call : UsesName "writer" ("writer." ++ method.writer) :=
      usesName_owner (by decide) (isWord_writer method)
    refine ⟨_, List.mem_cons_self, ?_⟩
    simp only [Line.outer, String.append_assoc]
    rw [← String.append_assoc]
    exact call.before filled (.inr (by simp +decide))
  | writeObject field =>
    have argument : UsesName "writer" "writer)?;" := by decide
    exact ⟨_, List.mem_cons_self, argument.behind filled ".serialize(" rfl (by decide)⟩
  | writeTypedObject field =>
    refine ⟨_, List.mem_cons_self, ?_⟩
    simp only [Line.outer, String.append_assoc]
    exact .before filled (by decide) (.inl (by decide))
  | writePrimitiveVector field method p => exact counted field _
  | writeObjectVector field isOpen => exact counted field _
  | _ => exact absurd rfl writes

theorem usesName_readText (method : Method) (p : Primitive) :
    UsesName "reader" (readText method p) := by
  have filled : "reader" ≠ "" := by decide
  have owner : UsesName "reader" ("reader." ++ method.reader) :=
    usesName_owner (by decide) (isWord_reader method)
  have call : UsesName "reader" ("reader." ++ method.reader ++ "()?") :=
    owner.before filled (.inr (by decide))
  unfold readText
  split
  · rw [String.append_assoc]
    exact call.before filled (.inr (by simp +decide))
  · exact call

/-- The statement that fills a field uses both parameters. -/
theorem usesName_filling {name : String} (field : String) (filled : name ≠ "")
    (used : UsesName name "reader, types)?;") :
    UsesName name (fieldText field ++ ".deserialize(reader, types)?;") :=
  used.behind filled ".deserialize(" rfl (by decide)

/-- Every statement that reads uses the reader. -/
theorem usesName_reader {op : Op} (reads : readLines op ≠ []) :
    ∃ l ∈ readLines op, UsesName "reader" l.text := by
  have filled : "reader" ≠ "" := by decide
  have counted (body : List Line) : ∃ l ∈ readLoop body, UsesName "reader" l.text :=
    ⟨_, List.mem_cons_self, by decide⟩
  cases op with
  | delegateParent => decide
  | readFlag field bit =>
    have read : UsesName "reader" ("reader.read_flag(" ++ (toString bit ++ ")?;")) :=
      .before filled (by decide) (.inl (by decide))
    refine ⟨_, List.mem_cons_self, ?_⟩
    simp only [Line.outer, String.append_assoc]
    exact read.behind filled " = " (by simp [← String.append_assoc]) (by decide)
  | readPrimitive field method p =>
    have read : UsesName "reader" (readText method p ++ ";") :=
      (usesName_readText method p).before filled (.inr (by decide))
    refine ⟨_, List.mem_cons_self, ?_⟩
    simp only [Line.outer, String.append_assoc]
    exact read.behind filled " = " rfl (by decide)
  | readObject field t =>
    exact ⟨_, List.mem_cons_of_mem _ List.mem_cons_self, usesName_filling field filled (by decide)⟩
  | readTypedObject field =>
    exact ⟨_, List.mem_cons_of_mem _ List.mem_cons_self, usesName_filling field filled (by decide)⟩
  | readPrimitiveVector field method p => exact counted _
  | readObjectVector field t isOpen => exact counted _
  | _ => exact absurd rfl reads

/-- What looks up types, or fills something that may, uses the types. -/
theorem usesName_types {op : Op} (uses : op.usesTypes) :
    ∃ l ∈ readLines op, UsesName "types" l.text := by
  have filled : "types" ≠ "" := by decide
  cases op with
  | delegateParent => decide
  | readObject field t =>
    exact ⟨_, List.mem_cons_of_mem _ List.mem_cons_self, usesName_filling field filled (by decide)⟩
  | readTypedObject field =>
    exact ⟨_, List.mem_cons_of_mem _ List.mem_cons_self, usesName_filling field filled (by decide)⟩
  | readObjectVector field t isOpen =>
    refine ⟨.deeper (.outer "e.deserialize(reader, types)?;"), ?_, by decide⟩
    simp [readLines, readLoop, block]
  | _ => exact absurd uses Bool.false_ne_true

/-- Of the members of a field just the field itself is left out. -/
theorem bareNames_members {field : String} (h : IsWord field) {members : List String}
    (names : ∀ x ∈ members, IsWord x) :
    bareNames (['.'].intercalate (("self" :: field :: members).map (·.toList))) =
      "self".toList :: withoutFields (members.map (·.toList)) := by
  have names : ∀ x ∈ "self" :: field :: members, IsWord x :=
    List.forall_mem_cons.2 ⟨by decide, List.forall_mem_cons.2 ⟨h, names⟩⟩
  rw [bareNames_intercalate names (List.cons_ne_nil _ _)]
  exact if_pos rfl

theorem bareNames_field {field : String} (h : IsWord field) :
    bareNames (fieldText field).toList = ["self".toList] := by
  have chain : (fieldText field).toList = ['.'].intercalate (["self", field].map (·.toList)) := by
    simp [fieldText]
  rw [chain, bareNames_members h (List.forall_mem_nil _)]
  rfl

theorem bareNames_push {field : String} (h : IsWord field) :
    bareNames (fieldText field ++ ".push").toList = ["self".toList, "push".toList] := by
  have chain : (fieldText field ++ ".push").toList =
      ['.'].intercalate (["self", field, "push"].map (·.toList)) := by
    simp [fieldText]
  rw [chain, bareNames_members h (List.forall_mem_singleton.2 (by decide))]
  rfl

theorem not_mem_readText (method : Method) (p : Primitive) : 'p' ∉ (readText method p).toList := by
  have reader : 'p' ∉ method.reader.toList := by cases method <;> decide
  have native : 'p' ∉ p.native.spelling.toList := by cases p <;> decide
  unfold readText
  split <;> simp [reader, native]

/-- What neither looks up types nor fills anything that may does not use the types, even if the
field has their name. -/
theorem not_usesName_types {l : Layout} {P : String → Prop} (h : l.Named P) {op : Op}
    (mem : op ∈ l.readProgram) (idle : ¬ op.usesTypes) :
    ∀ line ∈ readLines op, ¬ UsesName "types" line.text := by
  -- behind the field there is no letter `p`
  have assigned {field rest : String} (name : IsWord field) (apart : FirstIs isBreak rest)
      (none : 'p' ∉ rest.toList) : ¬ UsesName "types" (fieldText field ++ rest) := by
    have unused : ¬ UsesName "types" rest := not_usesName_of_not_mem (by decide) none
    rw [usesName_append (by decide) (.inr apart), or_iff_left unused, UsesName,
      bareNames_field name]
    decide
  rcases Layout.mem_program mem with rfl | rfl | ⟨f, hf, rfl⟩ | ⟨f, hf, rfl⟩
  · exact List.forall_mem_nil _
  · exact absurd rfl idle
  · have digits : 'p' ∉ (toString f.bit).toList := fun digit =>
      nomatch isDigit_of_mem_toString (n := f.bit.toNat) digit
    refine List.forall_mem_singleton.2 ?_
    simp only [Line.outer, String.append_assoc]
    exact assigned (isWord_of_isSegment (h.flags f hf)) (by simp +decide) (by simp [digits])
  · have name := isWord_of_isSegment (h.fields f hf).ident
    unfold Op.reading at idle ⊢
    cases encoding : f.encoding with
    | primitive method p =>
      refine List.forall_mem_singleton.2 ?_
      simp only [Line.outer, String.append_assoc]
      exact assigned name (by simp +decide) (by simp [not_mem_readText])
    | primitiveVector method p =>
      have argument : ¬ UsesName "types" ("(" ++ (readText method p ++ ");")) :=
        not_usesName_of_not_mem (c := 'p') (by decide) (by simp [not_mem_readText])
      have pushed : ¬ UsesName "types" (fieldText f.ident ++ ".push") := by
        rw [UsesName, bareNames_push name]
        decide
      refine (forall_mem_block (P := fun text => ¬ UsesName "types" text)).2
        ⟨by decide, List.forall_mem_singleton.2 ?_, by decide⟩
      have split : ".push(" = ".push" ++ "(" := rfl
      simp only [Line.outer, split, String.append_assoc]
      rw [← String.append_assoc, usesName_append (by decide) (.inr (by simp +decide))]
      exact not_or_intro pushed argument
    | _ => exact absurd (by simp [encoding, Op.usesTypes]) idle

/-! ## Functions -/

/-- The parameter has the name if the body uses it, and otherwise the name behind an underscore. -/
structure Declares (body : List Line) (name parameter : String) : Prop where
  used : UsesName name (print body) → parameter = name
  unused : ¬ UsesName name (print body) → parameter = "_" ++ name

/-- The statements of the operations, and the result. -/
def resultBody (lines : Op → List Line) (ops : List Op) : List Line :=
  ops.flatMap lines ++ [.outer "Ok(())"]

theorem usesName_resultBody {name : String} (filled : name ≠ "") (done : ¬ UsesName name "Ok(())")
    {lines : Op → List Line} {ops : List Op} : UsesName name (print (resultBody lines ops)) ↔
      ∃ op ∈ ops, ∃ l ∈ lines op, UsesName name l.text := by
  rw [usesName_print filled]
  constructor
  · rintro ⟨l, mem, used⟩
    rcases List.mem_append.1 mem with mem | last
    · obtain ⟨op, hop, hl⟩ := List.mem_flatMap.1 mem
      exact ⟨op, hop, l, hl, used⟩
    · cases List.mem_singleton.1 last
      exact absurd used done
  · rintro ⟨op, hop, l, hl, used⟩
    exact ⟨l, List.mem_append_left _ (List.mem_flatMap.2 ⟨op, hop, hl⟩), used⟩

theorem declares_of_iff {body : List Line} {name parameter : String} {p : Prop}
    (uses : UsesName name (print body) ↔ p) (holds : p → parameter = name)
    (fails : ¬ p → parameter = "_" ++ name) : Declares body name parameter :=
  ⟨fun used => holds (uses.1 used), fun unused => fails (mt uses.2 unused)⟩

theorem resetLines_eq_nil_iff {l : Layout} {op : Op} (h : op ∈ l.resetProgram) :
    resetLines op = [] ↔ op = .nop := by
  rcases Layout.mem_program h with rfl | rfl | ⟨f, -, rfl⟩ | ⟨f, -, rfl⟩ <;> simp [resetLines]

theorem writeLines_eq_nil_iff {l : Layout} {op : Op} (h : op ∈ l.writeProgram) :
    writeLines op = [] ↔ op = .nop := by
  rcases Layout.mem_program h with rfl | rfl | ⟨f, -, rfl⟩ | ⟨f, -, rfl⟩
  · simp [writeLines]
  · simp [writeLines]
  · simp [writeLines]
  · unfold Op.writing
    cases f.encoding <;> simp [writeLines, writeLoop]

theorem readLines_eq_nil_iff {l : Layout} {op : Op} (h : op ∈ l.readProgram) :
    readLines op = [] ↔ op = .nop := by
  rcases Layout.mem_program h with rfl | rfl | ⟨f, -, rfl⟩ | ⟨f, -, rfl⟩
  · simp [readLines]
  · simp [readLines]
  · simp [readLines]
  · unfold Op.reading
    cases f.encoding <;> simp [readLines, readLoop, block]

/-- Each operation of the programs that is not idle has a statement. The functions have the
statements in the order of the operations, and parameters as their bodies use them. -/
structure PrintsPrograms (m : MessageDecl) (p : Program) : Prop where
  reset : ∀ op ∈ p.reset, resetLines op = [] ↔ op = .nop
  serialize : ∀ op ∈ p.serialize, writeLines op = [] ↔ op = .nop
  deserialize : ∀ op ∈ p.deserialize, readLines op = [] ↔ op = .nop
  functions : ∃ writer reader types,
    Declares (resultBody writeLines p.serialize) "writer" writer ∧
    Declares (resultBody readLines p.deserialize) "reader" reader ∧
    Declares (resultBody readLines p.deserialize) "types" types ∧
    codecLines m p =
      block ("impl Codec for " ++ m.name ++ " \x7b")
        (spaced
          [if p.reset.flatMap resetLines = [] then [.outer "fn reset(&mut self) \x7b\x7d"]
            else block "fn reset(&mut self) \x7b" (p.reset.flatMap resetLines) "\x7d",
            block ("fn serialize(&self, " ++ writer ++ ": &mut Writer) -> Result<()> \x7b")
              (resultBody writeLines p.serialize) "\x7d",
            block ("fn deserialize(&mut self, " ++ reader ++ ": &mut Reader<'_>, " ++ types ++
                ": &TypeRegistry) -> Result<()> \x7b")
              (resultBody readLines p.deserialize) "\x7d"])
        "\x7d"

/-- A program is idle if none of its operations has a statement. -/
theorem isIdle_iff {lines : Op → List Line} {ops : List Op}
    (printed : ∀ op ∈ ops, lines op = [] ↔ op = .nop) :
    isIdle ops = true ↔ ∀ op ∈ ops, lines op = [] := by
  rw [isIdle, List.all_eq_true]
  refine forall₂_congr fun op hop => ?_
  rw [decide_eq_true_iff, printed op hop]

theorem usesName_iff_not_isIdle {name : String} (filled : name ≠ "")
    (done : ¬ UsesName name "Ok(())") {lines : Op → List Line} {ops : List Op}
    (printed : ∀ op ∈ ops, lines op = [] ↔ op = .nop)
    (uses : ∀ {op}, lines op ≠ [] → ∃ l ∈ lines op, UsesName name l.text) :
    UsesName name (print (resultBody lines ops)) ↔ ¬ isIdle ops = true := by
  rw [usesName_resultBody filled done, isIdle_iff printed]
  constructor
  · rintro ⟨op, hop, l, hl, -⟩ idle
    exact List.ne_nil_of_mem hl (idle op hop)
  · intro busy
    obtain ⟨op, hop, statements⟩ : ∃ op ∈ ops, lines op ≠ [] := by simpa using busy
    exact ⟨op, hop, uses statements⟩

theorem usesName_types_iff {l : Layout} {P : String → Prop} (h : l.Named P) :
    UsesName "types" (print (resultBody readLines l.readProgram)) ↔
      l.readProgram.any Op.usesTypes = true := by
  rw [usesName_resultBody (by decide) (by decide), List.any_eq_true]
  refine exists_congr fun op => and_congr_right fun hop => ⟨fun used => ?_, usesName_types⟩
  by_contra idle
  obtain ⟨line, hl, used⟩ := used
  exact not_usesName_types h hop idle line hl used

section Functions

variable {l : Layout}

theorem resetFunction_eq : resetFunction l.resetProgram =
    if l.resetProgram.flatMap resetLines = [] then [.outer "fn reset(&mut self) \x7b\x7d"]
    else block "fn reset(&mut self) \x7b" (l.resetProgram.flatMap resetLines) "\x7d" := by
  have idle : isIdle l.resetProgram = true ↔ l.resetProgram.flatMap resetLines = [] := by
    rw [isIdle_iff fun _ => resetLines_eq_nil_iff, List.flatMap_eq_nil_iff]
  exact if_congr idle rfl rfl

theorem exists_serializeFunction : ∃ writer,
    Declares (resultBody writeLines l.writeProgram) "writer" writer ∧
    serializeFunction l.writeProgram =
      block ("fn serialize(&self, " ++ writer ++ ": &mut Writer) -> Result<()> \x7b")
        (resultBody writeLines l.writeProgram) "\x7d" := by
  have uses : UsesName "writer" (print (resultBody writeLines l.writeProgram)) ↔
      ¬ isIdle l.writeProgram = true :=
    usesName_iff_not_isIdle (by decide) (by decide) (fun _ => writeLines_eq_nil_iff) usesName_writer
  exact ⟨_, declares_of_iff uses (fun busy => if_neg busy) fun idle => if_pos (not_not.1 idle),
    rfl⟩

theorem exists_deserializeFunction {P : String → Prop} (h : l.Named P) : ∃ reader types,
    Declares (resultBody readLines l.readProgram) "reader" reader ∧
    Declares (resultBody readLines l.readProgram) "types" types ∧
    deserializeFunction l.readProgram =
      block ("fn deserialize(&mut self, " ++ reader ++ ": &mut Reader<'_>, " ++ types ++
          ": &TypeRegistry) -> Result<()> \x7b")
        (resultBody readLines l.readProgram) "\x7d" := by
  have uses : UsesName "reader" (print (resultBody readLines l.readProgram)) ↔
      ¬ isIdle l.readProgram = true :=
    usesName_iff_not_isIdle (by decide) (by decide) (fun _ => readLines_eq_nil_iff) usesName_reader
  exact ⟨_, _,
    declares_of_iff uses (fun busy => if_neg busy) fun idle => if_pos (not_not.1 idle),
    declares_of_iff (usesName_types_iff h) (fun used => if_pos used) fun unused => if_neg unused,
    rfl⟩

end Functions

/-- The functions of a planned message are its programs printed operation by operation. -/
theorem printsPrograms_of_plan {s : Schema} {m : MessageDecl} {l : Layout}
    (h : Layout.plan s m = .ok l) : PrintsPrograms m (.ofLayout m l) := by
  have named : l.Named fun _ => True :=
    Layout.named_of_plan (fun _ _ _ => trivial) (fun _ _ => trivial) h
  obtain ⟨writer, written, serialize⟩ := exists_serializeFunction (l := l)
  obtain ⟨reader, types, read, looked, deserialize⟩ := exists_deserializeFunction named
  refine ⟨fun _ => resetLines_eq_nil_iff, fun _ => writeLines_eq_nil_iff,
    fun _ => readLines_eq_nil_iff, writer, reader, types, written, read, looked, ?_⟩
  simp only [codecLines, Program.ofLayout, resetFunction_eq, serialize, deserialize]
  rfl

/-- A message with one field, which has the name of a parameter. -/
def legendMessage : MessageDecl where
  name := "Legend"
  protocolId := 1
  fields := [.primitive "types" "uint" "writeInt"]

/-- The types are not used: what stands behind `self` is the field. -/
theorem printsPrograms_of_plan_legend :
    ∃ l, Layout.plan ⟨[legendMessage], []⟩ legendMessage = .ok l ∧
      PrintsPrograms legendMessage (.ofLayout legendMessage l) ∧
      resultBody readLines l.readProgram =
        [.outer "self.types = reader.read_int()? as u32;", .outer "Ok(())"] ∧
      ¬ UsesName "types" (print (resultBody readLines l.readProgram)) ∧
      (deserializeFunction l.readProgram).head? =
        some (.outer ("fn deserialize(&mut self, reader: &mut Reader<'_>, " ++
          "_types: &TypeRegistry) -> Result<()> \x7b")) := by
  obtain ⟨l, planned⟩ := exists_of_isOk
    (show (Layout.plan ⟨[legendMessage], []⟩ legendMessage).isOk by decide +kernel)
  have program : (Layout.plan ⟨[legendMessage], []⟩ legendMessage).toOption.map (·.readProgram) =
      some [.readPrimitive "types" .int .uint] := by
    decide +kernel
  rw [planned] at program
  have program : l.readProgram = [.readPrimitive "types" .int .uint] := Option.some.inj program
  refine ⟨l, planned, printsPrograms_of_plan planned, ?_⟩
  rw [program]
  decide +kernel

end Source

end WireCodec
