import WireCodec.Proofs.ModuleText

/-!
# Names that a layout spells

A layout that comes out of planning spells the names of the schema. Which names of generated code a
message's module uses can be read off its declaration (`MessageDecl.usedNames`), and planning sees
to it that the module declares no name twice.
-/

namespace WireCodec

/-! ## Used names -/

/-- The custom type that the code of a field spells, if it is no flag and its vector is not open. -/
def FieldDecl.usedName (f : FieldDecl) : Option String :=
  if f.isFlag ∨ (Primitive.ofTag? f.typeName).isSome ∨ f.isVector ∧ f.isOpen then none
  else some f.typeName

/-- The names of generated code that a message's module uses. -/
def MessageDecl.usedNames (m : MessageDecl) : List String :=
  m.parentName.toList ++ m.fields.filterMap FieldDecl.usedName

theorem parentName_eq_of_ancestors {s : Schema} {m : MessageDecl} {ancestors : List MessageDecl}
    (h : s.ancestors m = .ok ancestors) :
    m.parentName = (Layout.parentOf ancestors).map (·.name) := by
  cases ancestors with
  | nil => exact Schema.parentName_eq_none_of_ancestorsFrom h
  | cons parent ancestors =>
    obtain ⟨⟨name, named, found⟩, -⟩ := Schema.ancestors_eq_cons h
    have same : parent.name = name := by simpa using List.find?_some found
    rw [named, ← same]
    rfl

namespace Layout

theorem mem_names_firstOfEachName {ts : List TypeRef} {name : String} :
    name ∈ (firstOfEachName ts).map (·.name) ↔ name ∈ ts.map (·.name) := by
  induction ts with
  | nil => rfl
  | cons t ts ih =>
    simp only [firstOfEachName, List.map_cons, List.mem_cons, ← ih]
    constructor
    · rintro (rfl | mem)
      · exact .inl rfl
      · obtain ⟨t', ht', rfl⟩ := List.mem_map.1 mem
        exact .inr (List.mem_map_of_mem (List.mem_filter.1 ht').1)
    · rintro (rfl | mem)
      · exact .inl rfl
      · obtain ⟨t', ht', rfl⟩ := List.mem_map.1 mem
        by_cases same : t'.name = t.name
        · exact .inl same
        · refine .inr (List.mem_map_of_mem (List.mem_filter.2 ⟨ht', ?_⟩))
          simpa using same

/-- The code of a planned field spells the name of its declared type, or none. -/
theorem namesType_iff {s : Schema} {message : String} {f : FieldDecl} {slot : FieldSlot}
    (data : f.isFlag = false) (h : fieldSlot s message f = .ok slot) {name : String} :
    Source.namesType name slot ↔ f.usedName = some name := by
  obtain ⟨p, method, tag, -, -, rfl⟩ | ⟨t, tag, found, rfl⟩ := fieldSlot_ok h
  · have none : f.usedName = none := if_pos (.inr (.inl (by rw [tag]; rfl)))
    rw [none]
    unfold primitiveSlot
    split_ifs <;> simp [Source.namesType]
  · have declared : t.name = f.typeName := by simpa using List.find?_some found
    unfold FieldDecl.usedName customSlot
    cases vector : f.isVector <;> cases isOpen : f.isOpen <;>
      simp [Source.namesType, data, tag, declared]

theorem exists_customType_of_namesType {name : String} {slot : FieldSlot}
    (h : Source.namesType name slot) : ∃ t, slot.encoding.customType = some t ∧ t.name = name := by
  unfold Source.namesType at h
  split at h
  · rename_i t encoding
    exact ⟨t, by rw [encoding]; rfl, eq_of_beq h⟩
  · rename_i t encoding
    exact ⟨t, by rw [encoding]; rfl, eq_of_beq h⟩
  · rename_i t encoding
    exact ⟨t, by rw [encoding]; rfl, eq_of_beq h⟩
  · exact nomatch h

/-- A layout uses the name of its parent and those that its fields spell. -/
theorem mem_usedNames {l : Layout} (h : l.imports = importsOf l.parent l.fields) {name : String} :
    name ∈ Source.usedNames l ↔
      (∃ p, l.parent = some p ∧ p.name = name) ∨ l.fields.any (Source.namesType name) := by
  have custom (spelled : l.fields.any (Source.namesType name)) :
      name ∈ (firstOfEachName (l.fields.filterMap (·.encoding.customType))).map (·.name) := by
    rw [mem_names_firstOfEachName]
    obtain ⟨slot, mem, names⟩ := List.any_eq_true.1 spelled
    obtain ⟨t, type, rfl⟩ := exists_customType_of_namesType names
    exact List.mem_map_of_mem (List.mem_filterMap.2 ⟨slot, mem, type⟩)
  rw [Source.usedNames, h, importsOf, List.filter_append, List.map_append, List.mem_append]
  apply or_congr
  · cases l.parent with
    | none => simp
    | some p => simp [Source.uses, eq_comm]
  · simp only [List.mem_map, List.mem_filter] at custom ⊢
    constructor
    · rintro ⟨_, ⟨⟨t, -, rfl⟩, used⟩, rfl⟩
      simpa [Source.uses] using used
    · intro spelled
      obtain ⟨t, mem, rfl⟩ := custom spelled
      exact ⟨_, ⟨⟨t, mem, rfl⟩, by simpa [Source.uses] using spelled⟩, rfl⟩

theorem mem_usedNames_iff {s : Schema} {m : MessageDecl} {l : Layout} (h : plan s m = .ok l)
    {name : String} : name ∈ Source.usedNames l ↔ name ∈ m.usedNames := by
  obtain ⟨-, ancestors, flags, fields, taken, taken', found, -, laid, -, rfl⟩ := plan_ok h
  have each := (claimEach_ok laid).1
  have parent : (∃ p, parentOf ancestors = some p ∧ p.name = name) ↔ m.parentName = some name := by
    rw [parentName_eq_of_ancestors found, Option.map_eq_some_iff]
  have spelled : fields.any (Source.namesType name) ↔
      name ∈ m.fields.filterMap FieldDecl.usedName := by
    rw [List.any_eq_true, List.mem_filterMap]
    constructor
    · rintro ⟨slot, mem, names⟩
      obtain ⟨f, hf, laid⟩ := exists_of_mem_right each mem
      obtain ⟨hf, data⟩ := List.mem_filter.1 hf
      exact ⟨f, hf, (namesType_iff (by simpa using data) laid).1 names⟩
    · rintro ⟨f, hf, names⟩
      have data : f.isFlag = false := by
        by_contra flag
        simp [FieldDecl.usedName, flag] at names
      obtain ⟨slot, mem, laid⟩ := exists_of_mem_left each (List.mem_filter.2 ⟨hf, by simp [data]⟩)
      exact ⟨slot, mem, (namesType_iff data laid).2 names⟩
  rw [mem_usedNames rfl, parent, spelled, MessageDecl.usedNames, List.mem_append,
    Option.mem_toList]

/-! ## Distinct names -/

/-- Names without a clash repeat neither each other nor those taken. -/
theorem nodup_of_firstClash? {taken names : List String} (h : firstClash? taken names = none) :
    names.Nodup ∧ ∀ name ∈ names, name ∉ taken := by
  induction names generalizing taken with
  | nil => exact ⟨.nil, nofun⟩
  | cons name names ih =>
    unfold firstClash? at h
    split_ifs at h with new
    obtain ⟨nodup, apart⟩ := ih h
    refine ⟨List.nodup_cons.2 ⟨fun again => apart name again List.mem_cons_self, nodup⟩, ?_⟩
    exact List.forall_mem_cons.2 ⟨new, fun n hn used => apart n hn (List.mem_cons_of_mem _ used)⟩

theorem runtimeNames_subset (l : Layout) : Source.runtimeNames l ⊆ reservedNames := by
  unfold Source.runtimeNames
  split <;> decide

theorem nodup_runtimeNames (l : Layout) : (Source.runtimeNames l).Nodup := by
  unfold Source.runtimeNames
  split <;> decide

theorem usedNames_sublist (l : Layout) :
    (Source.usedNames l).Sublist (l.imports.map (·.type.name)) :=
  List.filter_sublist.map _

/-- A planned message and the names that its module uses are none of the reserved names. -/
theorem not_mem_reservedNames_of_plan {s : Schema} {m : MessageDecl} {l : Layout}
    (h : plan s m = .ok l) : ∀ name ∈ m.name :: Source.usedNames l, name ∉ reservedNames := by
  obtain ⟨unreserved, ancestors, flags, fields, taken, taken', -, -, -, clash, rfl⟩ := plan_ok h
  obtain ⟨-, apart⟩ := nodup_of_firstClash? clash
  refine List.forall_mem_cons.2 ⟨unreserved, fun name mem reserved => ?_⟩
  exact apart name ((usedNames_sublist _).subset mem) (List.mem_cons_of_mem _ reserved)

/-- The module of a planned message declares no name twice. -/
theorem nodup_moduleNames {s : Schema} {m : MessageDecl} {l : Layout} (h : plan s m = .ok l) :
    (Source.runtimeNames l ++ Source.usedNames l ++ [m.name]).Nodup := by
  obtain ⟨unreserved, used⟩ := List.forall_mem_cons.1 (not_mem_reservedNames_of_plan h)
  obtain ⟨-, ancestors, flags, fields, taken, taken', -, -, -, clash, made⟩ := plan_ok h
  have imports : l.imports = importsOf (parentOf ancestors) fields := by rw [made]
  obtain ⟨nodup, apart⟩ := nodup_of_firstClash? clash
  rw [← imports] at nodup apart
  have imported := usedNames_sublist l
  refine List.nodup_append.2 ⟨List.nodup_append.2 ⟨nodup_runtimeNames l, nodup.sublist imported, ?_⟩,
    List.pairwise_singleton _ _, ?_⟩
  · rintro name runtime _ mem rfl
    exact used name mem (runtimeNames_subset l runtime)
  · rintro name mem _ own rfl
    cases List.mem_singleton.1 own
    rcases List.mem_append.1 mem with runtime | mem
    · exact unreserved (runtimeNames_subset l runtime)
    · exact apart m.name (imported.subset mem) List.mem_cons_self

end Layout

/-! ## Words -/

/-- The names of messages and of types are words. -/
structure Schema.Worded (s : Schema) : Prop where
  message : ∀ m ∈ s.messages, IsWord m.name
  type : ∀ t ∈ s.types, IsWord t.name

namespace Layout

theorem ident_of_flagSlot {message : String} {f : FieldDecl} {slot : FlagSlot}
    (h : flagSlot message f = .ok slot) : slot.ident = identifier f.name := by
  obtain ⟨position, -, rfl⟩ := flagSlot_ok h
  rfl

theorem ident_of_fieldSlot {s : Schema} {message : String} {f : FieldDecl} {slot : FieldSlot}
    (h : fieldSlot s message f = .ok slot) : slot.ident = identifier f.name := by
  obtain ⟨p, method, -, -, -, rfl⟩ | ⟨t, -, -, rfl⟩ := fieldSlot_ok h
  · unfold primitiveSlot
    split_ifs <;> rfl
  · unfold customSlot
    split_ifs <;> rfl

/-- The custom type of a planned field is one of the schema. -/
theorem exists_type_of_fieldSlot {s : Schema} {message : String} {f : FieldDecl} {slot : FieldSlot}
    (h : fieldSlot s message f = .ok slot) {t : TypeRef}
    (type : slot.encoding.customType = some t) : ∃ d ∈ s.types, t = ⟨d.name, d.package⟩ := by
  obtain ⟨p, method, -, -, -, rfl⟩ | ⟨d, -, found, rfl⟩ := fieldSlot_ok h
  · unfold primitiveSlot at type
    split_ifs at type <;> exact nomatch type
  · refine ⟨d, List.mem_of_find?_eq_some found, ?_⟩
    unfold customSlot at type
    split_ifs at type <;> exact (Option.some.inj type).symm

theorem named_of_fieldSlot {P : String → Prop} {s : Schema} (types : ∀ t ∈ s.types, P t.name)
    {message : String} {f : FieldDecl} {slot : FieldSlot} (h : fieldSlot s message f = .ok slot) :
    slot.Named P := by
  refine ⟨?_, fun t type => ?_⟩
  · rw [ident_of_fieldSlot h]
    exact isSegment_identifier f.name
  · obtain ⟨d, hd, rfl⟩ := exists_type_of_fieldSlot h type
    exact types d hd

theorem mem_firstOfEachName {ts : List TypeRef} {t : TypeRef} (h : t ∈ firstOfEachName ts) :
    t ∈ ts := by
  induction ts with
  | nil => exact h
  | cons t' ts ih =>
    rcases List.mem_cons.1 h with rfl | h
    · exact List.mem_cons_self
    · exact List.mem_cons_of_mem _ (ih (List.mem_filter.1 h).1)

theorem imports_eq_of_plan {s : Schema} {m : MessageDecl} {l : Layout} (h : plan s m = .ok l) :
    l.imports = importsOf l.parent l.fields := by
  obtain ⟨-, ancestors, flags, fields, taken, taken', -, -, -, -, rfl⟩ := plan_ok h
  rfl

/-- The custom types that a planned layout imports are types of the schema. -/
theorem exists_type_of_plan {s : Schema} {m : MessageDecl} {l : Layout} (h : plan s m = .ok l)
    {t : TypeRef} (ht : t ∈ firstOfEachName (l.fields.filterMap (·.encoding.customType))) :
    ∃ d ∈ s.types, t = ⟨d.name, d.package⟩ := by
  obtain ⟨-, ancestors, flags, fields, taken, taken', -, -, laid, -, rfl⟩ := plan_ok h
  obtain ⟨slot, hs, type⟩ := List.mem_filterMap.1 (mem_firstOfEachName ht)
  obtain ⟨f, -, made⟩ := exists_of_mem_right (claimEach_ok laid).1 hs
  exact exists_type_of_fieldSlot made type

/-- The names that the code of a planned layout spells are those of the parent and of types of the
schema. -/
theorem named_of_plan {P : String → Prop} {s : Schema} {m : MessageDecl}
    (messages : ∀ p ∈ s.messages, m.parentName = some p.name → P p.name)
    (types : ∀ t ∈ s.types, P t.name) {l : Layout} (h : plan s m = .ok l) : l.Named P := by
  obtain ⟨-, ancestors, flags, fields, taken, taken', found, laidFlags, laid, -, rfl⟩ := plan_ok h
  have parent : ∀ t, parentOf ancestors = some t → P t.name := by
    intro t ht
    have named := parentName_eq_of_ancestors found
    rw [ht] at named
    obtain ⟨a, ha, rfl⟩ := Option.map_eq_some_iff.1 ht
    exact messages a (Schema.mem_messages_of_ancestors found a (List.mem_of_head? ha)) named
  have slots : ∀ f ∈ fields, f.Named P := by
    intro f hf
    obtain ⟨d, -, made⟩ := exists_of_mem_right (claimEach_ok laid).1 hf
    exact named_of_fieldSlot types made
  refine ⟨parent, fun f hf => ?_, slots, fun i hi => ?_⟩
  · have mem := (flags.mergeSort_perm (·.position ≤ ·.position)).mem_iff.1 hf
    obtain ⟨d, -, made⟩ := exists_of_mem_right (claimEach_ok laidFlags).1 mem
    rw [ident_of_flagSlot made]
    exact isSegment_identifier d.name
  · rcases List.mem_append.1 hi with hi | hi
    · obtain ⟨t, ht, rfl⟩ := List.mem_map.1 hi
      exact parent t (Option.mem_toList.1 ht)
    · obtain ⟨t, ht, rfl⟩ := List.mem_map.1 hi
      obtain ⟨f, hf, type⟩ := List.mem_filterMap.1 (mem_firstOfEachName ht)
      exact (slots f hf).customType t type

theorem worded_of_plan {s : Schema} (words : s.Worded) {m : MessageDecl} {l : Layout}
    (h : plan s m = .ok l) : l.Worded :=
  named_of_plan (fun p hp _ => words.message p hp) words.type h

end Layout

end WireCodec
