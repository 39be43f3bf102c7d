import WireCodec.Proofs.ModuleParts
import WireCodec.Proofs.Shadowing

/-!
# Exact imports

Which types the module of a message imports is decided apart from the code that spells them. The two
agree (`Source.declaring_moduleLines`): the parent and each custom type is imported by its path, and
just once, exactly if the code behind the imports spells its name. What the code spells is read off
its text (`Source.namesOf`). A name of the schema that the code also spells in another sense tells
nothing; such a name is still spelled where the schema calls the type differently
(`Source.PrintedElse`).
-/

namespace WireCodec

/-! ## Printed lines -/

namespace Source

/-- A line that stays on its line spells its names in the text. -/
theorem mem_namesOf_print {ls : List Line} {text : String} (mem : text ∈ ls.map Line.text)
    (plain : Unbroken text) {w : String} (filled : w ≠ "") (spelled : w ∈ lineNames text.toList) :
    w ∈ namesOf (print ls) := by
  obtain ⟨l, hl, rfl⟩ := List.mem_map.1 mem
  have whole : l.chars.splitOn '\n' = [l.chars] :=
    List.splitOn_eq_singleton fun mem => (not_mem_chars plain _ mem).1 rfl
  have piece : l.chars ∈ ls.flatMap (·.chars.splitOn '\n') :=
    List.mem_flatMap.2 ⟨l, hl, by rw [whole]; exact List.mem_cons_self⟩
  rw [namesOf, List.mem_filter, linesOf_print_pieces]
  refine ⟨List.mem_flatMap.2 ⟨_, List.mem_map_of_mem piece, ?_⟩, by simpa using filled⟩
  rwa [withoutReturn_chars plain.getLast?_ne, Line.chars_outer, String.toList_ofList,
    lineNames_chars]

/-- So do lines of which the type names are known. -/
theorem SpellAll.mem_namesOf_print {ls ls' : List Line} {names : List String}
    (h : SpellAll ls' names) (neat : Neat ls') (sub : ls' ⊆ ls) {w : String} (hw : w ∈ typeNames)
    (mem : w ∈ names) : w ∈ namesOf (print ls) := by
  have filled : w ≠ "" := fun empty => toList_ne_nil_of_mem w hw (by rw [empty]; rfl)
  obtain ⟨l, hl, spelled⟩ := List.mem_flatMap.1 ((h w hw).2 mem)
  exact Source.mem_namesOf_print (List.mem_map_of_mem (sub hl)) (neat l hl) filled spelled

/-! ## Code that spells a type -/

section Spelling

variable {x : String} (word : IsWord x) (filled : x ≠ "")

include word filled

theorem mem_heads_own {rest : List Char} (ends : endsName rest) :
    x.toList ∈ heads (x.toList ++ rest) :=
  (mem_heads_name (by simpa using filled) word ends).2 (.inl rfl)

theorem mem_heads_behind {rest : List Char} (ends : endsName rest) {front : List Char}
    (cut : front.getLast?.any isBreak) : x.toList ∈ heads (front ++ (x.toList ++ rest)) :=
  (mem_heads_break (by simpa using filled) (.inl cut)).2 (.inr (mem_heads_own word filled ends))

omit word in
/-- The line that gives a field its initial value. -/
theorem mem_lineNames_label {ident : String} (hi : IsWord ident) {value : String}
    (spelled : x.toList ∈ heads value.toList) : x ∈ lineNames (ident ++ ": " ++ value).toList := by
  have pieces : (ident ++ ": " ++ value).toList =
      ident.toList ++ (": ".toList ++ value.toList) := by
    simp
  rw [pieces, lineNames_eq_of_startsCode (startsCode_label hi _)]
  refine List.mem_map.2 ⟨x.toList, ?_, String.ofList_toList⟩
  exact (mem_heads_label (by simpa using filled) hi).2 spelled

/-- The line that makes an element of a closed sequence. -/
theorem mem_lineNames_element :
    x ∈ lineNames ("let mut e = " ++ (x ++ "::default()") ++ ";").toList := by
  have pieces : ("let mut e = " ++ (x ++ "::default()") ++ ";").toList =
      "let mut e = ".toList ++ (x.toList ++ "::default();".toList) := by
    simp
  rw [pieces, lineNames_eq_of_startsCode rfl]
  refine List.mem_map.2 ⟨x.toList, mem_heads_behind word filled rfl rfl, String.ofList_toList⟩

end Spelling

/-! ## Lines of a module -/

theorem map_text_block (opening : String) (body : List Line) (closing : String) :
    (block opening body closing).map Line.text =
      opening :: (body.map Line.text ++ [closing]) := by
  simp [block, Line.outer, Line.deeper, Function.comp_def]

section Texts

variable {m : MessageDecl} {l : Layout}

theorem parentText_mem {p : TypeRef} (hp : l.parent = some p) :
    baseField ++ ": " ++ (p.name ++ "::default(),") ∈ (defaultLines m l).map Line.text := by
  have filled : l.isEmpty = false := by simp [Layout.isEmpty, hp]
  simp [defaultLines, filled, hp, map_text_block, Line.outer, String.append_assoc]

theorem fieldText_mem {f : FieldSlot} (hf : f ∈ l.fields) :
    f.ident ++ ": " ++ (initialText f.initial ++ ",") ∈ (defaultLines m l).map Line.text := by
  have filled : l.isEmpty = false := by
    simp [Layout.isEmpty, List.ne_nil_of_mem hf]
  simp only [defaultLines, filled, map_text_block]
  simp only [Bool.false_eq_true, if_false, map_text_block, List.map_append, List.map_map,
    List.mem_cons, List.mem_append, List.mem_map, Function.comp_apply, Line.outer]
  exact .inr (.inl (.inr (.inl (.inr (.inl (.inr ⟨f, hf, by simp [String.append_assoc]⟩))))))

theorem readText_mem {f : FieldSlot} (hf : f ∈ l.fields) {line : Line}
    (hl : line ∈ readLines (.reading f)) :
    line.text ∈ (codecLines m (.ofLayout m l)).map Line.text := by
  have statement : line ∈ l.readProgram.flatMap readLines := by
    rw [Layout.readProgram, Layout.flatMap_program rfl]
    exact List.mem_append_right _ (List.mem_flatMap.2 ⟨f, hf, hl⟩)
  have function : line.text ∈ (deserializeFunction l.readProgram).map Line.text := by
    rw [deserializeFunction, map_text_block, List.map_append]
    exact List.mem_cons_of_mem _ (List.mem_append_left _
      (List.mem_append_left _ (List.mem_map_of_mem statement)))
  rw [codecLines, map_text_block]
  refine List.mem_cons_of_mem _ (List.mem_append_left _ ?_)
  exact List.map_subset _ (subset_spaced (by simp [Program.ofLayout])) function

end Texts

section Used

variable {m : MessageDecl} {l : Layout}

theorem defaultLines_subset : defaultLines m l ⊆ bodyLines m l (.ofLayout m l) :=
  subset_spaced (by simp)

theorem codecLines_subset : codecLines m (.ofLayout m l) ⊆ bodyLines m l (.ofLayout m l) :=
  subset_spaced (by simp)

/-- The parent is spelled where it starts. -/
theorem mem_namesOf_of_parent (h : l.Worded) {p : TypeRef} (hp : l.parent = some p)
    (filled : p.name ≠ "") :
    p.name ∈ namesOf (print (bodyLines m l (.ofLayout m l))) := by
  have word := h.parent p hp
  have mem := List.map_subset Line.text defaultLines_subset (parentText_mem (m := m) hp)
  have own : p.name.toList ∈ heads (p.name ++ "::default(),").toList := by
    rw [String.toList_append]
    exact mem_heads_own word filled rfl
  refine mem_namesOf_print mem ?_ filled (mem_lineNames_label filled isWord_baseField own)
  simp +decide [word.unbroken]

/-- So is what the initial value of a field spells. -/
theorem mem_namesOf_of_initial (sound : l.Sound) (h : l.Worded) {f : FieldSlot}
    (hf : f ∈ l.fields) {x : String} (filled : x ≠ "")
    (spelled : x.toList ∈ heads (initialText f.initial ++ ",").toList) :
    x ∈ namesOf (print (bodyLines m l (.ofLayout m l))) := by
  have ident := (h.fields f hf).ident
  have value := unbroken_initialText (sound.coherent f hf) (h.unbroken.fields f hf)
  have mem := List.map_subset Line.text defaultLines_subset (fieldText_mem (m := m) hf)
  refine mem_namesOf_print mem ?_ filled
    (mem_lineNames_label filled (isWord_of_isSegment ident) spelled)
  simp +decide [ident.unbroken, value]

/-- The elements of a closed sequence are spelled where they are read. -/
theorem mem_namesOf_of_element (h : l.Worded) {f : FieldSlot} (hf : f ∈ l.fields) {t : TypeRef}
    (closed : f.encoding = .objectVector t false) (filled : t.name ≠ "") :
    t.name ∈ namesOf (print (bodyLines m l (.ofLayout m l))) := by
  have word := (h.fields f hf).customType t (by rw [closed]; rfl)
  have element : .outer ("let mut e = " ++ (t.name ++ "::default()") ++ ";") ∈
      [Line.outer ("let mut e = " ++ (t.name ++ "::default()") ++ ";"),
        .outer "e.deserialize(reader, types)?;", .outer (fieldText f.ident ++ ".push(e);")] :=
    List.mem_cons_self
  have statement : Line.deeper (.outer ("let mut e = " ++ (t.name ++ "::default()") ++ ";")) ∈
      readLines (.reading f) := by
    rw [Op.reading, closed]
    exact List.mem_append_left _ (List.mem_cons_of_mem _ (List.mem_map_of_mem element))
  have mem := List.map_subset Line.text codecLines_subset (readText_mem (m := m) hf statement)
  refine mem_namesOf_print mem ?_ filled (mem_lineNames_element word filled)
  simp +decide [Line.outer, Line.deeper, word.unbroken]

/-- The code spells the names that it uses. -/
theorem mem_namesOf_of_used (sound : l.Sound) (h : l.Worded) {x : String} (filled : x ≠ "")
    (used : (∃ p, l.parent = some p ∧ p.name = x) ∨ l.fields.any (namesType x)) :
    x ∈ namesOf (print (bodyLines m l (.ofLayout m l))) := by
  rcases used with ⟨p, hp, rfl⟩ | used
  · exact mem_namesOf_of_parent h hp filled
  · obtain ⟨f, hf, names⟩ := List.any_eq_true.1 used
    obtain ⟨t, type, rfl⟩ := Layout.exists_customType_of_namesType names
    have word := (h.fields f hf).customType t type
    unfold namesType at names
    cases sound.coherent f hf with
    | primitive method p _ _ _ encoding => simp [encoding] at names
    | primitiveVector method p _ _ _ encoding => simp [encoding] at names
    | openVector t' _ _ encoding => simp [encoding] at names
    | object t' _ initial encoding =>
      obtain rfl : t' = t := by simpa [encoding, Encoding.customType] using type
      refine mem_namesOf_of_initial sound h hf filled ?_
      have pieces : (initialText f.initial ++ ",").toList =
          t'.name.toList ++ "::default(),".toList := by
        simp [initial, initialText]
      rw [pieces]
      exact mem_heads_own word filled rfl
    | polymorphic t' _ initial encoding =>
      obtain rfl : t' = t := by simpa [encoding, Encoding.customType] using type
      refine mem_namesOf_of_initial sound h hf filled ?_
      have pieces : (initialText f.initial ++ ",").toList =
          "Box::new(".toList ++ (t'.name.toList ++ "::default()),".toList) := by
        simp [initial, initialText]
      rw [pieces]
      exact mem_heads_behind word filled rfl rfl
    | closedVector t' _ _ encoding =>
      obtain rfl : t' = t := by simpa [encoding, Encoding.customType] using type
      exact mem_namesOf_of_element h hf encoding filled

end Used

/-! ## Renaming what is not used -/

/-- What an operation shows in the code. -/
def shown (op : Op) : (List Line × List Line × List Line) × Bool × Bool :=
  ((resetLines op, writeLines op, readLines op), op = .nop, op.usesTypes)

/-- The functions of a message show just what the operations do. -/
theorem codecLines_congr (m : MessageDecl) {p p' : Program}
    (reset : p.reset.map shown = p'.reset.map shown)
    (serialize : p.serialize.map shown = p'.serialize.map shown)
    (deserialize : p.deserialize.map shown = p'.deserialize.map shown) :
    codecLines m p = codecLines m p' := by
  have idle (ops : List Op) : isIdle ops = (ops.map shown).all (·.2.1) := by
    rw [List.all_map]
    rfl
  have types (ops : List Op) : ops.any Op.usesTypes = (ops.map shown).any (·.2.2) := by
    rw [List.any_map]
    rfl
  have resets (ops : List Op) : ops.flatMap resetLines = (ops.map shown).flatMap (·.1.1) := by
    rw [List.flatMap_map]
    rfl
  have writes (ops : List Op) : ops.flatMap writeLines = (ops.map shown).flatMap (·.1.2.1) := by
    rw [List.flatMap_map]
    rfl
  have reads (ops : List Op) : ops.flatMap readLines = (ops.map shown).flatMap (·.1.2.2) := by
    rw [List.flatMap_map]
    rfl
  simp only [codecLines, resetFunction, serializeFunction, deserializeFunction, idle, types, resets,
    writes, reads, reset, serialize, deserialize]

section Rename

variable {ρ : String → String}

theorem shown_program {l : Layout} {onFlag : FlagSlot → Op} {onField : FieldSlot → Op}
    (same : ∀ f ∈ l.fields, shown (onField (f.rename ρ)) = shown (onField f)) :
    ((l.rename ρ).program onFlag onField).map shown = (l.program onFlag onField).map shown := by
  have fields : ((l.fields.map (·.rename ρ)).map onField).map shown =
      (l.fields.map onField).map shown := by
    simpa using same
  have orIdle (ops : List Op) : (if ops.isEmpty then [.nop] else ops).map shown =
      if (ops.map shown).isEmpty then [shown .nop] else ops.map shown := by
    cases ops <;> rfl
  simp only [Layout.program, Layout.rename, orIdle, Option.isSome_map, List.map_append, fields]

variable {f : FieldSlot} (coherent : f.Coherent) (fixed : ∀ name, namesType name f → ρ name = name)

include coherent fixed

/-- The code of a field shows no other names than those it uses. -/
theorem texts_rename :
    typeText (f.rename ρ).type = typeText f.type ∧
      initialText (f.rename ρ).initial = initialText f.initial ∧
      shown (.writing (f.rename ρ)) = shown (.writing f) ∧
      shown (.reading (f.rename ρ)) = shown (.reading f) := by
  unfold namesType at fixed
  unfold FieldSlot.rename Op.writing Op.reading
  cases coherent with
  | primitive method p _ type initial encoding =>
    rw [type, initial, encoding]
    exact ⟨rfl, rfl, rfl, rfl⟩
  | primitiveVector method p _ type initial encoding =>
    rw [type, initial, encoding]
    exact ⟨rfl, rfl, rfl, rfl⟩
  | object t type initial encoding =>
    have same : t.rename ρ = t := by simp [TypeRef.rename, fixed t.name (by simp [encoding])]
    rw [type, initial, encoding]
    simp only [FieldType.rename, Initial.rename, Encoding.rename, same, and_self]
  | polymorphic t type initial encoding =>
    have same : t.rename ρ = t := by simp [TypeRef.rename, fixed t.name (by simp [encoding])]
    rw [type, initial, encoding]
    simp only [FieldType.rename, Initial.rename, Encoding.rename, same, and_self]
  | closedVector t type initial encoding =>
    have same : t.rename ρ = t := by simp [TypeRef.rename, fixed t.name (by simp [encoding])]
    rw [type, initial, encoding]
    simp only [FieldType.rename, Initial.rename, Encoding.rename, same, and_self]
  | openVector t type initial encoding =>
    rw [type, initial, encoding]
    exact ⟨rfl, rfl, rfl, rfl⟩

end Rename

/-- Names that the code does not use may be others. -/
theorem bodyLines_rename {ρ : String → String} (m : MessageDecl) {l : Layout} (sound : l.Sound)
    (parent : ∀ p, l.parent = some p → ρ p.name = p.name)
    (fields : ∀ f ∈ l.fields, ∀ name, namesType name f → ρ name = name) :
    bodyLines m (l.rename ρ) (.ofLayout m (l.rename ρ)) = bodyLines m l (.ofLayout m l) := by
  have texts (f : FieldSlot) (hf : f ∈ l.fields) :=
    texts_rename (sound.coherent f hf) (fields f hf)
  have base : l.parent.map (·.rename ρ) = l.parent := by
    cases hp : l.parent with
    | none => rfl
    | some p => simp [TypeRef.rename, parent p hp]
  have empty : (l.rename ρ).isEmpty = l.isEmpty := by
    simp [Layout.isEmpty, Layout.rename]
  have reset : (l.rename ρ).resetProgram.map shown = l.resetProgram.map shown := by
    refine shown_program fun f hf => ?_
    simp only [shown, resetLines, writeLines, readLines, (texts f hf).2.1]
    rfl
  have codec : codecLines m (.ofLayout m (l.rename ρ)) = codecLines m (.ofLayout m l) :=
    codecLines_congr m reset (shown_program fun f hf => (texts f hf).2.2.1)
      (shown_program fun f hf => (texts f hf).2.2.2)
  have types : (l.fields.map (·.rename ρ)).map
      (fun f => Line.outer ("pub " ++ f.ident ++ ": " ++ typeText f.type ++ ",")) =
        l.fields.map fun f => .outer ("pub " ++ f.ident ++ ": " ++ typeText f.type ++ ",") := by
    rw [List.map_map]
    refine List.map_congr_left fun f hf => ?_
    simp only [Function.comp_apply, (texts f hf).1]
    rfl
  have values : (l.fields.map (·.rename ρ)).map
      (fun f => Line.outer (f.ident ++ ": " ++ initialText f.initial ++ ",")) =
        l.fields.map fun f => .outer (f.ident ++ ": " ++ initialText f.initial ++ ",") := by
    rw [List.map_map]
    refine List.map_congr_left fun f hf => ?_
    simp only [Function.comp_apply, (texts f hf).2.1]
    rfl
  have struct : structLines m (l.rename ρ) = structLines m l := by
    rw [structLines, structLines, empty]
    simp only [Layout.rename, base, types]
  have default : defaultLines m (l.rename ρ) = defaultLines m l := by
    rw [defaultLines, defaultLines, empty]
    simp only [Layout.rename, base, values]
  have id : idLines m (.ofLayout m (l.rename ρ)) = idLines m (.ofLayout m l) := rfl
  rw [bodyLines, bodyLines, struct, default, id, codec]

/-! ## What is imported -/

/-- The name is spelled in the code whatever the parent or type of that name is called. -/
def PrintedElse (m : MessageDecl) (l : Layout) (x : String) : Prop :=
  ∀ y, IsWord y → y ≠ x →
    x ∈ namesOf (print (bodyLines m (l.rename (Function.update id x y))
      (.ofLayout m (l.rename (Function.update id x y)))))

/-- Where the name is not used, it is spelled just for another reason. -/
theorem printedElse_of_spelled {m : MessageDecl} {l : Layout} (sound : l.Sound) {x : String}
    (unused : ¬ ((∃ p, l.parent = some p ∧ p.name = x) ∨ l.fields.any (namesType x)))
    (spelled : x ∈ namesOf (print (bodyLines m l (.ofLayout m l)))) : PrintedElse m l x := by
  intro y _ _
  have other {name : String} (h : name ≠ x) : Function.update id x y name = name :=
    Function.update_of_ne h y id
  rw [bodyLines_rename m sound]
  · exact spelled
  · exact fun p hp => other fun own => unused (.inl ⟨p, hp, own⟩)
  · intro f hf name names
    refine other fun own => unused (.inr ?_)
    exact List.any_eq_true.2 ⟨f, hf, own ▸ names⟩

end Source

/-- The parent of a message and the custom types of its schema, each with its path. -/
def Schema.importable (s : Schema) (settings : Settings) (m : MessageDecl) :
    List (String × String) :=
  (m.parentName.bind s.message?).toList.map
      (fun p => (p.name, settings.messagePath p.package p.name)) ++
    s.types.map fun t => (t.name, settings.typePath t.package t.name)

namespace Layout

variable {s : Schema} {m : MessageDecl} {l : Layout} (planned : plan s m = .ok l)

include planned

/-- An import of a planned layout is used under the path of the parent or of its type. -/
theorem importPath_of_plan (settings : Settings) {i : Import} (hi : i ∈ l.imports)
    (used : Source.uses l i) :
    ∃ path, Source.importPath settings l i = some path ∧
      (i.type.name, path) ∈ s.importable settings m := by
  obtain ⟨-, ancestors, flags, fields, taken, taken', found, -, -, -, made⟩ := plan_ok planned
  have parent : l.parent = parentOf ancestors := by rw [made]
  rw [imports_eq_of_plan planned, parent] at hi
  rcases List.mem_append.1 hi with hi | hi
  · obtain ⟨t, ht, rfl⟩ := List.mem_map.1 hi
    obtain ⟨p, hp, rfl⟩ := Option.map_eq_some_iff.1 (Option.mem_toList.1 ht)
    obtain ⟨rest, rfl⟩ := List.head?_eq_some_iff.1 hp
    obtain ⟨⟨name, named, known⟩, -⟩ := Schema.ancestors_eq_cons found
    refine ⟨_, rfl, List.mem_append_left _ (List.mem_map.2 ⟨p, ?_, rfl⟩)⟩
    rw [named, Option.mem_toList]
    exact known
  · obtain ⟨t, ht, rfl⟩ := List.mem_map.1 hi
    obtain ⟨d, hd, rfl⟩ := exists_type_of_plan planned ht
    exact ⟨_, if_pos (by simpa [Source.uses] using used),
      List.mem_append_right _ (List.mem_map_of_mem hd)⟩

/-- Values of open type are those of fields that are declared so and are no flags. -/
theorem hasOpen_iff : l.hasOpen ↔ ∃ f ∈ m.fields, f.isFlag = false ∧ f.isOpen := by
  obtain ⟨-, ancestors, flags, fields, taken, taken', -, -, laid, -, rfl⟩ := plan_ok planned
  have each := (claimEach_ok laid).1
  have slot {f : FieldDecl} {slot : FieldSlot} (made : fieldSlot s m.name f = .ok slot) :
      slot.encoding.isOpen = f.isOpen := by
    obtain ⟨p, method, -, closed, -, rfl⟩ | ⟨t, -, -, rfl⟩ := fieldSlot_ok made
    · unfold primitiveSlot
      split_ifs <;> simp_all [Encoding.isOpen]
    · unfold customSlot
      cases vector : f.isVector <;> cases isOpen : f.isOpen <;> rfl
  rw [hasOpen, List.any_eq_true]
  constructor
  · rintro ⟨f', hf', isOpen⟩
    obtain ⟨f, hf, made⟩ := exists_of_mem_right each hf'
    obtain ⟨hf, data⟩ := List.mem_filter.1 hf
    exact ⟨f, hf, by simpa using data, (slot made).symm.trans isOpen⟩
  · rintro ⟨f, hf, data, isOpen⟩
    obtain ⟨f', hf', made⟩ := exists_of_mem_left each (List.mem_filter.2 ⟨hf, by simp [data]⟩)
    exact ⟨f', hf', (slot made).trans isOpen⟩

/-- The names in a planned layout are words if those of the parent and of the types are. -/
theorem worded_of_importable {settings : Settings}
    (words : ∀ i ∈ s.importable settings m, IsWord i.1) : l.Worded := by
  refine named_of_plan (fun p hp named => ?_) (fun t ht => ?_) planned
  · obtain ⟨p', found⟩ : ∃ p', s.message? p.name = some p' :=
      Option.isSome_iff_exists.1 (List.find?_isSome.2 ⟨p, hp, by simp⟩)
    have same : p'.name = p.name := by simpa using List.find?_some found
    have parent : p' ∈ (m.parentName.bind s.message?).toList := by
      rw [named, Option.mem_toList]
      exact found
    rw [← same]
    exact words _ (List.mem_append_left _ (List.mem_map_of_mem parent))
  · exact words _ (List.mem_append_right _ (List.mem_map_of_mem ht))

end Layout

namespace Source

/-! ## Lines that declare a name -/

/-- The lines that declare the item. -/
def declaring (name : String) (ls : List Line) : List Line := ls.filter (·.item? = some name)

section Declaring

variable {ls : List Line} {name : String}

theorem declaring_eq_nil (absent : name ∉ ls.filterMap Line.item?) : declaring name ls = [] := by
  refine List.filter_eq_nil_iff.2 fun l hl item => absent ?_
  exact List.mem_filterMap.2 ⟨l, hl, by simpa using item⟩

theorem declaring_eq_singleton (nodup : (ls.filterMap Line.item?).Nodup) {l : Line} (hl : l ∈ ls)
    (item : l.item? = some name) : declaring name ls = [l] := by
  obtain ⟨before, after, rfl⟩ := List.append_of_mem hl
  rw [List.filterMap_append, List.filterMap_cons_some item, List.nodup_middle, List.nodup_cons,
    List.mem_append, not_or] at nodup
  obtain ⟨⟨first, last⟩, -⟩ := nodup
  have none {ls : List Line} (absent : name ∉ ls.filterMap Line.item?) :
      ls.filter (·.item? = some name) = [] :=
    declaring_eq_nil absent
  rw [declaring, List.filter_append, List.filter_cons_of_pos (by simpa using item), none first,
    none last, List.nil_append]

/-- A line that declares something is read back as it is. -/
theorem declaring_linesOf_print (neat : Neat ls) :
    declaring name (linesOf (print ls)) = declaring name ls := by
  have item (l : Line) : l.flat.item? = l.item? := by
    rw [Line.item?, Line.item?, declaration?_flat]
  have flush (l : Line) (declared : l.item? = some name) : l.flat = l := by
    have outer : l.depth = 0 := by
      by_contra deep
      simp [Line.item?, Line.declaration?, deep] at declared
    cases l with
    | mk depth text =>
      cases outer
      simp [Line.flat, Line.chars, Line.outer]
  rw [linesOf_print neat, declaring, declaring, List.filter_map]
  simp only [Function.comp_def, item]
  refine (List.map_congr_left fun l hl => flush l ?_).trans (List.map_id _)
  simpa using (List.mem_filter.1 hl).2

end Declaring

theorem item?_useLine {root name : String} (plain : ':' ∉ name.toList) :
    (useLine (root ++ "::" ++ name)).item? = some name := by
  rw [Line.item?, declaration?_useLine root plain]

theorem useLine_mem {settings : Settings} {m : MessageDecl} {l : Layout} {p : Program}
    {path : String} (h : path ∈ (runtimeNames l).map (settings.runtimeCrate ++ "::" ++ ·) ∨
      path ∈ l.imports.filterMap (importPath settings l)) :
    useLine path ∈ moduleLines settings m l p := by
  have inner : useLine path ∈ importLines settings l := by
    rcases h with h | h
    · obtain ⟨name, mem, rfl⟩ := List.mem_map.1 h
      exact subset_spaced List.mem_cons_self (List.mem_map.2 ⟨name, mem, rfl⟩)
    · exact subset_spaced (by simp) (List.mem_map_of_mem h)
  exact subset_spaced (by simp) inner

/-- The code below the title spells what the struct does. -/
theorem spellAll_belowTitle {m : MessageDecl} {l : Layout} {names : List String}
    (h : SpellAll (structLines m l) names) : SpellAll (belowTitle m l) names := by
  intro w hw
  have title := (spellAll_title m w hw).not.2 List.not_mem_nil
  rw [List.flatMap_singleton] at title
  rw [← h w hw, structLines_eq, List.flatMap_cons, List.mem_append, or_iff_right title]

/-- The names that the module takes from the runtime crate are spelled in its code. -/
theorem mem_namesOf_of_runtime {m : MessageDecl} (own : IsWord m.name) {l : Layout}
    (sound : l.Sound) (h : l.Worded) {x : String} (runtime : x ∈ runtimeNames l) :
    x ∈ namesOf (print (bodyLines m l (.ofLayout m l))) := by
  have type : x ∈ typeNames := List.mem_append_left _ (Layout.runtimeNames_subset l runtime)
  have within {ls : List Line} {names : List String} (spells : SpellAll ls names) (neat : Neat ls)
      (sub : ls ⊆ bodyLines m l (.ofLayout m l)) (mem : x ∈ names) :
      x ∈ namesOf (print (bodyLines m l (.ofLayout m l))) :=
    spells.mem_namesOf_print neat sub type mem
  have struct := within (spellAll_belowTitle (spellAll_structLines own sound h))
    (neat_cons.1 (neat_structLines (m := { m with package := "" }) own.unbroken sound h.unbroken
      (show Unbroken "" by decide))).2
    (List.Subset.trans (List.tail_sublist _).subset (subset_spaced (by simp)))
  have codec := within (spellAll_codecLines own sound h)
    (neat_codecLines own.unbroken sound h.unbroken) codecLines_subset
  have message := within (spellAll_messageLines own) (neat_messageLines own.unbroken)
    (subset_spaced (by simp))
  have fieldType (isOpen : l.hasOpen) : "ProtocolType" ∈ l.fields.flatMap (·.type.names) := by
    obtain ⟨f, hf, isOpen⟩ := List.any_eq_true.1 isOpen
    refine List.mem_flatMap.2 ⟨f, hf, ?_⟩
    cases sound.coherent f hf with
    | polymorphic t type => simp [type, FieldType.names]
    | openVector t type => simp [type, FieldType.names]
    | primitive method p _ _ _ encoding => simp [encoding, Encoding.isOpen] at isOpen
    | primitiveVector method p _ _ _ encoding => simp [encoding, Encoding.isOpen] at isOpen
    | object t _ _ encoding => simp [encoding, Encoding.isOpen] at isOpen
    | closedVector t _ _ encoding => simp [encoding, Encoding.isOpen] at isOpen
  rw [runtimeNames, List.mem_append, List.mem_append] at runtime
  rcases runtime with (first | openType) | last
  · rcases List.mem_cons.1 first with rfl | first
    · exact codec List.mem_cons_self
    · cases List.mem_singleton.1 first
      exact message List.mem_cons_self
  · split_ifs at openType with isOpen
    · cases List.mem_singleton.1 openType
      exact struct (List.mem_cons_of_mem _ (List.mem_append_right _ (fieldType isOpen)))
    · cases openType
  · refine codec ?_
    simp only [List.mem_cons, List.not_mem_nil, or_false] at last
    rcases last with rfl | rfl | rfl | rfl <;> simp

section Exact

variable {settings : Settings} {s : Schema} {m : MessageDecl} {l : Layout}
  (planned : Layout.plan s m = .ok l) (own : IsWord m.name)
  (words : ∀ i ∈ s.importable settings m, IsWord i.1)

include planned own words

/-- The module declares what it imports and its struct, each once. -/
theorem items_of_plan (p : Program) :
    (moduleLines settings m l p).filterMap Line.item? =
        runtimeNames l ++ usedNames l ++ [m.name] ∧
      ((moduleLines settings m l p).filterMap Line.item?).Nodup := by
  have worded := Layout.worded_of_importable planned words
  have items := (items_of_declarations (declarations_moduleLines settings own worded p)).1
  exact ⟨items, items ▸ Layout.nodup_moduleNames planned⟩

/-- A name that the module uses is imported by its path. -/
theorem declaring_of_used (distinct : ((s.importable settings m).map Prod.fst).Nodup) (p : Program)
    {i : String × String} (hi : i ∈ s.importable settings m) (used : i.1 ∈ usedNames l) :
    declaring i.1 (moduleLines settings m l p) = [useLine i.2] := by
  obtain ⟨t, ht, name⟩ := List.mem_map.1 used
  obtain ⟨ht, uses⟩ := List.mem_filter.1 ht
  obtain ⟨path, found, listed⟩ := Layout.importPath_of_plan planned settings ht uses
  obtain ⟨root, path'⟩ := exists_importPath settings uses
  obtain rfl : i = (t.type.name, path) :=
    List.inj_on_of_nodup_map distinct hi listed name.symm
  obtain rfl : path = root ++ "::" ++ t.type.name := Option.some.inj (found.symm.trans path')
  refine declaring_eq_singleton (items_of_plan planned own words p).2
    (useLine_mem (.inr (List.mem_filterMap.2 ⟨t, ht, found⟩))) ?_
  exact item?_useLine ((words _ hi).not_mem (by decide))

/-- A name that the module does not use is not imported, unless the code spells it otherwise. -/
theorem declaring_of_not_used {x : String} (other : x ≠ m.name) (unused : x ∉ usedNames l)
    (apart : ¬ PrintedElse m l x) :
    x ∉ namesOf (print (bodyLines m l (.ofLayout m l))) ∧
      declaring x (moduleLines settings m l (.ofLayout m l)) = [] := by
  have worded := Layout.worded_of_importable planned words
  have sound := Layout.sound_of_plan planned
  have silent : x ∉ namesOf (print (bodyLines m l (.ofLayout m l))) := by
    refine fun spelled => apart (printedElse_of_spelled sound (fun used => unused ?_) spelled)
    exact (Layout.mem_usedNames (Layout.imports_eq_of_plan planned)).2 used
  refine ⟨silent, declaring_eq_nil fun mem => ?_⟩
  rw [(items_of_plan planned own words _).1, List.mem_append, List.mem_append,
    List.mem_singleton] at mem
  rcases mem with (runtime | used) | struct
  · exact silent (mem_namesOf_of_runtime own sound worded runtime)
  · exact unused used
  · exact other struct

end Exact

/-- The module of a message consists of its header, the imports and its code. In the lines of the
module the parent of the message and each custom type are imported by their paths, and by one line,
if the code spells their names, and by no line otherwise; and `ProtocolType` is imported exactly if
there is a field of open type. Where everything stays on its line, so it is in the text. -/
theorem declaring_moduleLines {settings : Settings} {s : Schema} {m : MessageDecl} {l : Layout}
    (planned : Layout.plan s m = .ok l) (own : IsWord m.name)
    (words : ∀ i ∈ s.importable settings m, IsWord i.1 ∧ i.1 ≠ "")
    (distinct : (m.name :: (s.importable settings m).map Prod.fst).Nodup)
    (apart : ∀ i ∈ s.importable settings m, ¬ PrintedElse m l i.1) :
    moduleLines settings m l (.ofLayout m l) =
        [headerLine m, .blank] ++ importLines settings l ++
          .blank :: bodyLines m l (.ofLayout m l) ∧
      (∀ i ∈ s.importable settings m,
        declaring i.1 (moduleLines settings m l (.ofLayout m l)) =
          if i.1 ∈ namesOf (print (bodyLines m l (.ofLayout m l))) then [useLine i.2] else []) ∧
      (declaring "ProtocolType" (moduleLines settings m l (.ofLayout m l)) =
        if ∃ f ∈ m.fields, f.isFlag = false ∧ f.isOpen then
          [useLine (settings.runtimeCrate ++ "::" ++ "ProtocolType")]
        else []) ∧
      ∃ a, Artifact.ofMessage settings s m = .ok a ∧
        a.source = print (moduleLines settings m l (.ofLayout m l)) ∧
        (settings.Neat → Unbroken m.package → ∀ name,
          declaring name (linesOf a.source) =
            declaring name (moduleLines settings m l (.ofLayout m l))) := by
  have words' : ∀ i ∈ s.importable settings m, IsWord i.1 := fun i hi => (words i hi).1
  have worded := Layout.worded_of_importable planned words'
  have sound := Layout.sound_of_plan planned
  obtain ⟨other, distinct⟩ := List.nodup_cons.1 distinct
  obtain ⟨items, nodup⟩ := items_of_plan planned own words' (.ofLayout m l)
  refine ⟨moduleLines_eq settings m l _, fun i hi => ?_, ?_, _,
    Artifact.ofMessage_eq_ok_iff.2 ⟨l, planned, rfl⟩, rfl, fun neat package name => ?_⟩
  · by_cases used : i.1 ∈ usedNames l
    · have spelled := mem_namesOf_of_used (m := m) sound worded (words i hi).2
        ((Layout.mem_usedNames (Layout.imports_eq_of_plan planned)).1 used)
      rw [if_pos spelled]
      exact declaring_of_used planned own words' distinct _ hi used
    · have foreign : i.1 ≠ m.name := fun same => other (same ▸ List.mem_map_of_mem hi)
      obtain ⟨silent, none⟩ := declaring_of_not_used planned own words' foreign used (apart i hi)
      rw [if_neg silent, none]
  · have reserved := Layout.not_mem_reservedNames_of_plan planned "ProtocolType"
    by_cases isOpen : l.hasOpen
    · have runtime : "ProtocolType" ∈ runtimeNames l := by simp [runtimeNames, isOpen]
      rw [if_pos ((Layout.hasOpen_iff planned).1 isOpen)]
      exact declaring_eq_singleton nodup (useLine_mem (.inl (List.mem_map_of_mem runtime)))
        (item?_useLine (by decide))
    · rw [if_neg fun field => isOpen ((Layout.hasOpen_iff planned).2 field)]
      refine declaring_eq_nil fun mem => ?_
      rw [items, List.mem_append, List.mem_append, List.mem_singleton] at mem
      rcases mem with (runtime | used) | struct
      · simp [runtimeNames, isOpen] at runtime
      · exact reserved (List.mem_cons_of_mem _ used) (by decide)
      · exact reserved (List.mem_cons.2 (.inl struct)) (by decide)
  · exact declaring_linesOf_print
      (neat_moduleLines neat own.unbroken package sound worded.unbroken)

/-! ### A type in three fields -/

theorem subset_of_mem_splitOnP {p : Char → Bool} {cs chunk : List Char}
    (h : chunk ∈ cs.splitOnP p) : chunk ⊆ cs := by
  induction cs generalizing chunk with
  | nil =>
    rw [List.splitOnP_nil, List.mem_singleton] at h
    rw [h]
    exact List.nil_subset _
  | cons c cs ih =>
    rw [List.splitOnP_cons_eq_if_modifyHead] at h
    split_ifs at h with sep
    · rcases List.mem_cons.1 h with rfl | h
      · exact List.nil_subset _
      · exact List.Subset.trans (ih h) (List.subset_cons_self c cs)
    · cases split : cs.splitOnP p with
      | nil => exact absurd split (List.splitOnP_ne_nil _ _)
      | cons first others =>
        rw [split] at h ih
        rcases List.mem_cons.1 h with rfl | h
        · exact List.cons_subset_cons c (ih List.mem_cons_self)
        · have below := ih (List.mem_cons_of_mem first h)
          exact List.Subset.trans below (List.subset_cons_self c cs)

theorem subset_of_mem_linesOf {text : String} {l : Line} (h : l ∈ linesOf text) :
    l.chars ⊆ text.toList := by
  obtain ⟨cs, hcs, rfl⟩ := List.mem_map.1 h
  rw [Line.chars_outer, String.toList_ofList]
  rcases List.mem_append.1 hcs with hcs | hcs
  · obtain ⟨piece, mem, rfl⟩ := List.mem_map.1 hcs
    refine List.Subset.trans ?_ (subset_of_mem_splitOnP ((List.dropLast_sublist _).subset mem))
    unfold withoutReturn
    split_ifs
    · exact List.dropLast_subset _
    · exact List.Subset.refl _
  · split_ifs at hcs with empty
    · exact nomatch hcs
    · cases List.mem_singleton.1 hcs
      cases last : (text.toList.splitOn '\n').getLast? with
      | none => exact List.nil_subset _
      | some piece => exact subset_of_mem_splitOnP (List.mem_of_getLast? last)

/-- A text spells no name with a character that it does not have. -/
theorem subset_of_mem_namesOf {text w : String} (h : w ∈ namesOf text) :
    w.toList ⊆ text.toList := by
  obtain ⟨l, hl, spelled⟩ := List.mem_flatMap.1 (List.mem_filter.1 h).1
  refine List.Subset.trans ?_ (subset_of_mem_linesOf hl)
  unfold lineNames at spelled
  simp only at spelled
  split_ifs at spelled
  · obtain ⟨head, mem, rfl⟩ := List.mem_map.1 spelled
    obtain ⟨chunk, hc, rfl⟩ := List.mem_map.1 mem
    rw [String.toList_ofList]
    have name : leading chunk ⊆ chunk := by
      unfold leading
      split_ifs
      · exact List.nil_subset _
      · exact (List.takeWhile_sublist _).subset
    have behind := List.Subset.trans (subset_of_mem_splitOnP hc) (List.dropWhile_sublist _).subset
    exact List.Subset.trans name behind
  · exact nomatch spelled

/-- A character that no line of the code has, which can be seen by its bytes. -/
def lacks (ls : List Line) (c : Char) : Bool :=
  c != '\n' && c != ' ' &&
    ls.all fun l => (String.utf8EncodeChar c).any fun b => !(utf8 l.text).contains b

theorem not_mem_namesOf_print {ls : List Line} {w : String} (missing : w.toList.any (lacks ls)) :
    w ∉ namesOf (print ls) := by
  obtain ⟨c, hc, lacking⟩ := List.any_eq_true.1 missing
  simp only [lacks, Bool.and_eq_true, bne_iff_ne, List.all_eq_true, List.any_eq_true,
    Bool.not_eq_true'] at lacking
  obtain ⟨⟨notFeed, notBlank⟩, absent⟩ := lacking
  intro spelled
  have printed := subset_of_mem_namesOf spelled hc
  rw [print, toList_join, List.flatMap_map] at printed
  obtain ⟨l, hl, mem⟩ := List.mem_flatMap.1 printed
  rw [Line.toList_print, List.mem_append, List.mem_singleton, or_iff_left notFeed] at mem
  obtain ⟨b, hb, none⟩ := absent l hl
  refine Bool.eq_false_iff.1 none (List.contains_iff_mem.2 (mem_utf8 ?_ b hb))
  unfold Line.chars Line.shift at mem
  split_ifs at mem
  · cases mem
  · exact (List.mem_append.1 mem).resolve_left fun blank =>
      notBlank (List.eq_of_mem_replicate blank)

/-- A message with a parent, with one type in three fields, of which one is a vector of open type,
and with another type that is only in such a vector. -/
def raidMessage : MessageDecl where
  name := "Raid"
  package := "group"
  protocolId := 4
  parent := some "Quest"
  fields :=
    [.object "leader" "Knight", (FieldDecl.object "guards" "Knight").vector,
      (FieldDecl.object "allies" "Knight").vector.polymorphic,
      (FieldDecl.object "guests" "Jester").vector.polymorphic]

def raidSchema : Schema where
  messages := [{ name := "Quest", protocolId := 2 }, raidMessage]
  types := [{ name := "Knight", package := "court" }, { name := "Jester", package := "court" }]

def raidLayout : Layout where
  parent := some ⟨"Quest", ""⟩
  flags := []
  fields :=
    [Layout.customSlot (.object "leader" "Knight") ⟨"Knight", "court"⟩,
      Layout.customSlot (FieldDecl.object "guards" "Knight").vector ⟨"Knight", "court"⟩,
      Layout.customSlot (FieldDecl.object "allies" "Knight").vector.polymorphic
        ⟨"Knight", "court"⟩,
      Layout.customSlot (FieldDecl.object "guests" "Jester").vector.polymorphic
        ⟨"Jester", "court"⟩]
  imports :=
    [⟨.parent, "Quest", ""⟩, ⟨.custom, "Knight", "court"⟩, ⟨.custom, "Jester", "court"⟩]

theorem plan_raid : Layout.plan raidSchema raidMessage = .ok raidLayout := by
  have made : (Layout.plan raidSchema raidMessage).toOption = some raidLayout := by decide +kernel
  cases planned : Layout.plan raidSchema raidMessage with
  | error e => simp [planned, Except.toOption] at made
  | ok l => simpa [planned, Except.toOption] using made

/-- The type with a field of its own is imported, the one that is only in the vector is not. -/
theorem declaring_moduleLines_raid :
    ∃ l, Layout.plan raidSchema raidMessage = .ok l ∧
      declaring "Quest" (moduleLines {} raidMessage l (.ofLayout raidMessage l)) =
        [useLine "crate::quest::Quest"] ∧
      declaring "Knight" (moduleLines {} raidMessage l (.ofLayout raidMessage l)) =
        [useLine "crate::court::Knight"] ∧
      declaring "Jester" (moduleLines {} raidMessage l (.ofLayout raidMessage l)) = [] ∧
      declaring "ProtocolType" (moduleLines {} raidMessage l (.ofLayout raidMessage l)) =
        [useLine "protopack::ProtocolType"] := by
  have word : IsWord "Own" := by decide
  -- each of the names has a letter that occurs nowhere else in the code
  have apart : ∀ i ∈ raidSchema.importable {} raidMessage, i.1 ≠ "Own" ∧
      i.1.toList.any (lacks (bodyLines raidMessage
        (raidLayout.rename (Function.update id i.1 "Own"))
        (.ofLayout raidMessage (raidLayout.rename (Function.update id i.1 "Own"))))) := by
    decide +kernel
  have words : ∀ i ∈ raidSchema.importable {} raidMessage, IsWord i.1 ∧ i.1 ≠ "" := by
    decide +kernel
  obtain ⟨-, exact, openType, -⟩ := declaring_moduleLines plan_raid (by decide) words
    (by decide +kernel) fun i hi printed =>
      not_mem_namesOf_print (apart i hi).2 (printed "Own" word (apart i hi).1.symm)
  have sound := Layout.sound_of_plan plan_raid
  have worded := Layout.worded_of_importable plan_raid fun i hi => (words i hi).1
  have quest := exact ("Quest", "crate::quest::Quest") (by decide +kernel)
  have knight := exact ("Knight", "crate::court::Knight") (by decide +kernel)
  have jester := exact ("Jester", "crate::court::Jester") (by decide +kernel)
  rw [if_pos (mem_namesOf_of_used sound worded (by decide) (.inl ⟨_, rfl, rfl⟩))] at quest
  rw [if_pos (mem_namesOf_of_used sound worded (by decide) (.inr (by decide)))] at knight
  rw [if_neg (not_mem_namesOf_print (by decide +kernel))] at jester
  rw [if_pos (by decide)] at openType
  exact ⟨raidLayout, plan_raid, quest, knight, jester, openType⟩

end Source

end WireCodec
