import WireCodec.Proofs.LayoutNames

/-!
# Which messages can be laid out

A message can be laid out exactly if it is well formed (`Schema.WellFormed`): its name is free, its
parents lead to a root, each field can be carried, and neither the identifiers of the fields nor the
names of the types that it refers to clash. The conditions are those of the declarations alone. They
do not say in which order anything is looked at.
-/

namespace WireCodec

/-! ## Names of types and methods -/

theorem Primitive.ofTag?_eq_some_iff {tag : String} {p : Primitive} :
    ofTag? tag = some p ↔ tag = p.tag := by
  constructor
  · intro found
    have same := List.find?_some found
    exact (eq_of_beq same).symm
  · rintro rfl
    cases p <;> decide

theorem Primitive.ofTag?_eq_none_iff {tag : String} :
    ofTag? tag = none ↔ ∀ p : Primitive, tag ≠ p.tag := by
  simp only [Option.eq_none_iff_forall_ne_some, Ne, ofTag?_eq_some_iff]

theorem Method.ofName?_eq_some_iff {name : String} {method : Method} :
    ofName? name = some method ↔ name = method.name := by
  constructor
  · intro found
    have same := List.find?_some found
    exact (eq_of_beq same).symm
  · rintro rfl
    cases method <;> decide

theorem Schema.exists_type?_iff {s : Schema} {name : String} :
    (∃ t, s.type? name = some t) ↔ ∃ t ∈ s.types, t.name = name := by
  rw [← Option.isSome_iff_exists, type?, List.find?_isSome]
  simp

/-! ## Distinct names -/

/-- Names are all different and not taken if the first is not taken and the others neither repeat
each other nor one that is taken by then. -/
theorem nodup_and_apart_cons {α : Type} {taken names : List α} {name : α} :
    ((name :: names).Nodup ∧ ∀ n ∈ name :: names, n ∉ taken) ↔
      name ∉ taken ∧ names.Nodup ∧ ∀ n ∈ names, n ∉ name :: taken := by
  rw [List.nodup_cons, List.forall_mem_cons]
  constructor
  · rintro ⟨⟨once, nodup⟩, new, apart⟩
    refine ⟨new, nodup, fun n hn again => ?_⟩
    rcases List.mem_cons.1 again with rfl | old
    · exact once hn
    · exact apart n hn old
  · rintro ⟨new, nodup, apart⟩
    exact ⟨⟨fun again => apart name again List.mem_cons_self, nodup⟩, new,
      fun n hn old => apart n hn (List.mem_cons_of_mem _ old)⟩

theorem nodup_append_iff_apart {α : Type} {taken names : List α} :
    (taken ++ names).Nodup ↔ taken.Nodup ∧ names.Nodup ∧ ∀ n ∈ names, n ∉ taken := by
  rw [List.nodup_append]
  refine and_congr_right fun _ => and_congr_right fun _ => ?_
  exact ⟨fun h n hn old => h n old n hn rfl, fun h x hx y hy same => h y hy (same ▸ hx)⟩

/-! ## Fields -/

namespace FieldDecl

/-- The field is one boolean at a position. -/
structure FitsFlag (f : FieldDecl) : Prop where
  boolean : f.typeName = Primitive.boolean.tag
  single : f.isVector = false
  placed : ∃ position, f.flagPosition = some position

/-- The field has a primitive type and a method of the wire that carries values of its kind. -/
structure FitsMethod (f : FieldDecl) : Prop where
  closed : f.isOpen = false
  carried : ∃ (p : Primitive) (method : Method), f.typeName = p.tag ∧
    f.writeMethod = some method.name ∧ method.kind = p.kind

/-- The type of the field is not primitive. -/
def HasCustomType (f : FieldDecl) : Prop := ∀ p : Primitive, f.typeName ≠ p.tag

/-- The schema declares a type of the name that the field gives. -/
def HasDeclaredType (f : FieldDecl) (s : Schema) : Prop := ∃ t ∈ s.types, t.name = f.typeName

/-- The field can be carried: by a method if its type is primitive, as a declared type if not. -/
def IsCarried (f : FieldDecl) (s : Schema) : Prop :=
  f.FitsMethod ∨ f.HasCustomType ∧ f.HasDeclaredType s

end FieldDecl

namespace Layout

section Slots

variable {s : Schema} {message : String} {f : FieldDecl}

theorem exists_flagSlot_iff : (∃ slot, flagSlot message f = .ok slot) ↔ f.FitsFlag := by
  constructor
  · rintro ⟨slot, h⟩
    obtain ⟨position, placed, -⟩ := flagSlot_ok h
    unfold flagSlot at h
    split_ifs at h with boolean vector
    exact ⟨Primitive.ofTag?_eq_some_iff.1 (not_not.1 boolean), Bool.eq_false_iff.2 vector,
      position, placed⟩
  · rintro ⟨boolean, single, position, placed⟩
    unfold flagSlot
    rw [if_neg (not_not.2 (Primitive.ofTag?_eq_some_iff.2 boolean)), single, placed]
    exact ⟨_, rfl⟩

theorem exists_writeMethod_iff {p : Primitive} :
    (∃ method, writeMethod message f p = .ok method) ↔
      ∃ method : Method, f.writeMethod = some method.name ∧ method.kind = p.kind := by
  constructor
  · rintro ⟨method, h⟩
    obtain ⟨named, accepted⟩ := writeMethod_ok h
    obtain ⟨name, written, found⟩ := Option.bind_eq_some_iff.1 named
    obtain rfl := Method.ofName?_eq_some_iff.1 found
    exact ⟨method, written, eq_of_beq accepted⟩
  · rintro ⟨method, written, kind⟩
    have accepted : method.accepts p := beq_iff_eq.2 kind
    have found : Method.ofName? method.name = some method := Method.ofName?_eq_some_iff.2 rfl
    refine ⟨method, ?_⟩
    simp only [writeMethod, written, found]
    exact if_pos accepted

/-- A field of a primitive type needs a method; any other needs a declared type. -/
theorem exists_fieldSlot_iff : (∃ slot, fieldSlot s message f = .ok slot) ↔ f.IsCarried s := by
  unfold fieldSlot FieldDecl.IsCarried
  cases tag : Primitive.ofTag? f.typeName with
  | some p =>
    have primitive := Primitive.ofTag?_eq_some_iff.1 tag
    constructor
    · rintro ⟨slot, h⟩
      split_ifs at h with isOpen
      obtain ⟨method, chosen, -⟩ := map_eq_ok_iff.1 h
      obtain ⟨method, written, kind⟩ := exists_writeMethod_iff.1 ⟨method, chosen⟩
      exact .inl ⟨Bool.eq_false_iff.2 isOpen, p, method, primitive, written, kind⟩
    · rintro (⟨closed, p', method, type, written, kind⟩ | ⟨custom, -⟩)
      · have tag' := Primitive.ofTag?_eq_some_iff.2 type
        cases tag.symm.trans tag'
        obtain ⟨method, chosen⟩ : ∃ method, writeMethod message f p = .ok method :=
          exists_writeMethod_iff.2 ⟨method, written, kind⟩
        exact ⟨primitiveSlot f method p, by simp [closed, chosen]⟩
      · exact absurd primitive (custom p)
  | none =>
    have custom : f.HasCustomType := Primitive.ofTag?_eq_none_iff.1 tag
    cases found : s.type? f.typeName with
    | some t =>
      have declared : f.HasDeclaredType s := Schema.exists_type?_iff.1 ⟨t, found⟩
      exact ⟨fun _ => .inr ⟨custom, declared⟩, fun _ => ⟨_, rfl⟩⟩
    | none =>
      refine ⟨fun ⟨_, h⟩ => (nomatch h), ?_⟩
      rintro (⟨-, p, -, type, -⟩ | ⟨-, declared⟩)
      · exact absurd type (custom p)
      · obtain ⟨t, h⟩ := Schema.exists_type?_iff.2 declared
        exact nomatch found.symm.trans h

end Slots

/-! ## Identifiers -/

/-- Fields have identifiers of their own if the flags have and the others have none of those. -/
theorem nodup_identifiers_iff {taken : List String} (nodup : taken.Nodup) (fs : List FieldDecl) :
    (taken ++ fs.map (identifier ·.name)).Nodup ↔
      (((fs.filter (·.isFlag)).map (identifier ·.name)).Nodup ∧
        ∀ i ∈ (fs.filter (·.isFlag)).map (identifier ·.name), i ∉ taken) ∧
      ((fs.filter (!·.isFlag)).map (identifier ·.name)).Nodup ∧
        ∀ i ∈ (fs.filter (!·.isFlag)).map (identifier ·.name),
          i ∉ ((fs.filter (·.isFlag)).map (identifier ·.name)).reverse ++ taken := by
  have parts : (taken ++ fs.map (identifier ·.name)).Perm
      ((taken ++ (fs.filter (·.isFlag)).map (identifier ·.name)) ++
        (fs.filter (!·.isFlag)).map (identifier ·.name)) := by
    rw [List.append_assoc, ← List.map_append]
    exact ((List.filter_append_perm _ fs).symm.map _).append_left taken
  rw [parts.nodup_iff, nodup_append_iff_apart, nodup_append_iff_apart]
  simp only [nodup, true_and, List.mem_append, List.mem_reverse, or_comm]

/-- Slots whose identifiers are all different and not taken are laid out one by one. -/
theorem claimEach_of_nodup {α : Type} {message : String} {lay : FieldDecl → Except SchemaError α}
    {ident : α → String} {taken : List String} {fs : List FieldDecl} {slots : List α}
    (laid : List.Forall₂ (fun f slot => lay f = .ok slot) fs slots)
    (nodup : (slots.map ident).Nodup) (apart : ∀ i ∈ slots.map ident, i ∉ taken) :
    claimEach message lay ident taken fs = .ok (slots, (slots.map ident).reverse ++ taken) := by
  induction laid generalizing taken with
  | nil => rfl
  | cons first _ ih =>
    obtain ⟨new, nodup, apart⟩ := nodup_and_apart_cons.1 ⟨nodup, apart⟩
    rw [claimEach, first]
    simp only [bind, Except.bind, if_neg new, ih nodup apart, pure, Except.pure,
      List.map_cons, List.reverse_cons, List.append_assoc, List.singleton_append]

/-! ## Imports -/

theorem firstClash?_eq_none_iff {taken names : List String} :
    firstClash? taken names = none ↔ names.Nodup ∧ ∀ name ∈ names, name ∉ taken := by
  refine ⟨nodup_of_firstClash?, fun h => ?_⟩
  induction names generalizing taken with
  | nil => rfl
  | cons name names ih =>
    obtain ⟨new, rest⟩ := nodup_and_apart_cons.1 h
    rw [firstClash?, if_neg new, ih rest]

theorem nodup_names_firstOfEachName (ts : List TypeRef) :
    ((firstOfEachName ts).map (·.name)).Nodup := by
  induction ts with
  | nil => exact .nil
  | cons t ts ih =>
    rw [firstOfEachName, List.map_cons, List.nodup_cons]
    refine ⟨fun again => ?_, ih.sublist (List.filter_sublist.map _)⟩
    obtain ⟨t', mem, same⟩ := List.mem_map.1 again
    exact of_decide_eq_true (List.mem_filter.1 mem).2 same

/-- Imports clash with nothing if neither the parent nor a custom type has a name that is taken, and
no custom type has that of the parent. -/
theorem firstClash?_importsOf_eq_none_iff {taken : List String} {parent : Option TypeRef}
    {fields : List FieldSlot} :
    firstClash? taken ((importsOf parent fields).map (·.type.name)) = none ↔
      (∀ name, parent.map (·.name) = some name → name ∉ taken) ∧
      ∀ name ∈ (fields.filterMap (·.encoding.customType)).map (·.name),
        name ∉ taken ∧ parent.map (·.name) ≠ some name := by
  have names : (importsOf parent fields).map (·.type.name) = (parent.map (·.name)).toList ++
      (firstOfEachName (fields.filterMap (·.encoding.customType))).map (·.name) := by
    cases parent <;> simp [importsOf, Function.comp_def]
  have alone : (parent.map (·.name)).toList.Nodup := by
    cases parent <;> simp
  rw [firstClash?_eq_none_iff, names, List.nodup_append, List.forall_mem_append]
  simp only [alone, nodup_names_firstOfEachName, true_and, mem_names_firstOfEachName,
    Option.mem_toList]
  constructor
  · rintro ⟨apart, free, free'⟩
    exact ⟨free, fun name mem => ⟨free' name mem, fun same => apart name same name mem rfl⟩⟩
  · rintro ⟨free, free'⟩
    exact ⟨fun name same _ mem h => (free' _ mem).2 (h ▸ same), free, fun name mem =>
      (free' name mem).1⟩

/-- A field that is laid out refers to the custom type of the name that it gives. -/
theorem customType_of_fieldSlot {s : Schema} {message : String} {f : FieldDecl} {slot : FieldSlot}
    (h : fieldSlot s message f = .ok slot) {name : String} :
    slot.encoding.customType.map (·.name) = some name ↔ f.HasCustomType ∧ f.typeName = name := by
  obtain ⟨p, method, tag, -, -, rfl⟩ | ⟨t, tag, found, rfl⟩ := fieldSlot_ok h
  · have primitive : ¬ f.HasCustomType := fun custom =>
      custom p (Primitive.ofTag?_eq_some_iff.1 tag)
    unfold primitiveSlot
    split_ifs <;> simp [Encoding.customType, primitive]
  · have custom : f.HasCustomType := Primitive.ofTag?_eq_none_iff.1 tag
    have declared : t.name = f.typeName := by simpa using List.find?_some found
    unfold customSlot
    split_ifs <;> simp [Encoding.customType, custom, declared]

end Layout

/-! ## Ancestors -/

namespace Schema

/-- The names of parents lead from a message through the given ones to one without a parent. -/
inductive Descends (s : Schema) : MessageDecl → List MessageDecl → Prop
  | root {m : MessageDecl} (orphan : m.parentName = none) : Descends s m []
  | child {m parent : MessageDecl} {ancestors : List MessageDecl} {name : String}
    (named : m.parentName = some name) (found : s.message? name = some parent)
    (rest : Descends s parent ancestors) : Descends s m (parent :: ancestors)

theorem ancestorsFrom_eq_ok_iff {s : Schema} {start : String} {met : List String} {m : MessageDecl}
    {ancestors : List MessageDecl} : s.ancestorsFrom start met m = .ok ancestors ↔
      s.Descends m ancestors ∧ (ancestors.map (·.name)).Nodup ∧
        ∀ name ∈ ancestors.map (·.name), name ∉ met := by
  constructor
  · intro h
    induction ancestors generalizing met m with
    | nil => exact ⟨.root (parentName_eq_none_of_ancestorsFrom h), .nil, nofun⟩
    | cons parent ancestors ih =>
      obtain ⟨⟨name, named, found⟩, new, rest⟩ := ancestorsFrom_eq_cons h
      obtain ⟨descends, others⟩ := ih rest
      exact ⟨.child named found descends, nodup_and_apart_cons.2 ⟨new, others⟩⟩
  · rintro ⟨descends, distinct⟩
    induction descends generalizing met with
    | root orphan => exact ancestorsFrom_root orphan
    | child named found _ ih =>
      obtain ⟨new, rest⟩ := nodup_and_apart_cons.1 distinct
      rw [ancestorsFrom_step named found new, ih rest]
      rfl

/-- A message has the ancestors to which its parents lead, unless a name comes again. -/
theorem ancestors_eq_ok_iff {s : Schema} {m : MessageDecl} {ancestors : List MessageDecl} :
    s.ancestors m = .ok ancestors ↔
      s.Descends m ancestors ∧ ((m :: ancestors).map (·.name)).Nodup := by
  have first : ((m :: ancestors).map (·.name)).Nodup ↔ (ancestors.map (·.name)).Nodup ∧
      ∀ name ∈ ancestors.map (·.name), name ∉ [m.name] := by
    simpa using @nodup_and_apart_cons _ [] (ancestors.map (·.name)) m.name
  rw [Schema.ancestors, ancestorsFrom_eq_ok_iff, first]

/-! ## Well-formed messages -/

/-- Nothing is wrong with a message: neither with its name and its parents, nor with any field, nor
with the names of its fields and types together. What it takes to carry a field that is no flag is
left open. -/
structure WellFormed (s : Schema) (carried : FieldDecl → Prop) (m : MessageDecl) : Prop where
  unreserved : m.name ∉ reservedNames
  descends : ∃ ancestors, s.Descends m ancestors ∧ ((m :: ancestors).map (·.name)).Nodup
  flags : ∀ f ∈ m.fields, f.isFlag = true → f.FitsFlag
  fields : ∀ f ∈ m.fields, f.isFlag = false → carried f
  identifiers : ((if m.parentName.isSome then [baseField] else []) ++
    m.fields.map (identifier ·.name)).Nodup
  parent : ∀ name, m.parentName = some name → name ≠ m.name ∧ name ∉ reservedNames
  types : ∀ f ∈ m.fields, f.isFlag = false → f.HasCustomType →
    f.typeName ≠ m.name ∧ f.typeName ∉ reservedNames ∧ m.parentName ≠ some f.typeName

end Schema

namespace Layout

theorem nodup_base (m : MessageDecl) :
    (if m.parentName.isSome then [baseField] else []).Nodup := by
  split <;> simp

theorem isSome_parentName {s : Schema} {m : MessageDecl} {ancestors : List MessageDecl}
    (h : s.ancestors m = .ok ancestors) : m.parentName.isSome = (parentOf ancestors).isSome := by
  rw [parentName_eq_of_ancestors h, Option.isSome_map]

/-- Planning succeeds if its steps do. -/
theorem plan_of_steps {s : Schema} {m : MessageDecl} {ancestors : List MessageDecl}
    {flags : List FlagSlot} {fields : List FieldSlot} {taken taken' : List String}
    (unreserved : m.name ∉ reservedNames) (found : s.ancestors m = .ok ancestors)
    (laidFlags : claimEach m.name (flagSlot m.name) FlagSlot.ident
      (if (parentOf ancestors).isSome then [baseField] else [])
      (m.fields.filter (·.isFlag)) = .ok (flags, taken))
    (laidFields : claimEach m.name (fieldSlot s m.name) FieldSlot.ident taken
      (m.fields.filter (!·.isFlag)) = .ok (fields, taken'))
    (clash : firstClash? (m.name :: reservedNames)
      ((importsOf (parentOf ancestors) fields).map (·.type.name)) = none) :
    ∃ l, plan s m = .ok l := by
  refine ⟨{ parent := parentOf ancestors, flags := flags.mergeSort (·.position ≤ ·.position),
            fields, imports := importsOf (parentOf ancestors) fields }, ?_⟩
  unfold plan
  rw [if_neg unreserved, found, List.partition_eq_filter_filter]
  refine bind_eq_ok_iff.2 ⟨ancestors, rfl, ?_⟩
  refine bind_eq_ok_iff.2 ⟨(flags, taken), laidFlags, ?_⟩
  refine bind_eq_ok_iff.2 ⟨(fields, taken'), laidFields, ?_⟩
  dsimp only
  rw [← parentOf, clash]
  rfl

section Fields

variable {s : Schema} {m : MessageDecl} {flags : List FlagSlot} {slots : List FieldSlot}
  (laidFlags : List.Forall₂ (fun f slot => flagSlot m.name f = .ok slot)
    (m.fields.filter (·.isFlag)) flags)
  (laid : List.Forall₂ (fun f slot => fieldSlot s m.name f = .ok slot)
    (m.fields.filter (!·.isFlag)) slots)

include laid

theorem mem_customNames_iff {name : String} :
    name ∈ (slots.filterMap (·.encoding.customType)).map (·.name) ↔
      ∃ f ∈ m.fields, f.isFlag = false ∧ f.HasCustomType ∧ f.typeName = name := by
  simp only [List.map_filterMap, List.mem_filterMap]
  constructor
  · rintro ⟨slot, mem, type⟩
    obtain ⟨f, hf, made⟩ := exists_of_mem_right laid mem
    obtain ⟨hf, data⟩ := List.mem_filter.1 hf
    exact ⟨f, hf, by simpa using data, (customType_of_fieldSlot made).1 type⟩
  · rintro ⟨f, hf, data, type⟩
    obtain ⟨slot, mem, made⟩ := exists_of_mem_left laid (List.mem_filter.2 ⟨hf, by simp [data]⟩)
    exact ⟨slot, mem, (customType_of_fieldSlot made).2 type⟩

include laidFlags

theorem nodup_idents_iff {taken : List String} (nodup : taken.Nodup) :
    (taken ++ m.fields.map (identifier ·.name)).Nodup ↔
      ((flags.map (·.ident)).Nodup ∧ ∀ i ∈ flags.map (·.ident), i ∉ taken) ∧
      (slots.map (·.ident)).Nodup ∧
        ∀ i ∈ slots.map (·.ident), i ∉ (flags.map (·.ident)).reverse ++ taken := by
  rw [nodup_identifiers_iff nodup,
    map_eq_map_of_forall₂ laidFlags fun _ _ made => (ident_of_flagSlot made).symm,
    map_eq_map_of_forall₂ laid fun _ _ made => (ident_of_fieldSlot made).symm]

end Fields

/-- Nothing is wrong with a message that is laid out. -/
theorem wellFormed_of_plan {s : Schema} {m : MessageDecl} {l : Layout} (h : plan s m = .ok l) :
    s.WellFormed (·.IsCarried s) m := by
  obtain ⟨unreserved, ancestors, flags, fields, taken, taken', found, laidFlags, laidFields, clash,
    -⟩ := plan_ok h
  obtain ⟨eachFlag, nodupFlags, apartFlags, rfl⟩ := claimEach_ok laidFlags
  obtain ⟨each, nodup, apart, -⟩ := claimEach_ok laidFields
  rw [firstClash?_importsOf_eq_none_iff, ← parentName_eq_of_ancestors found] at clash
  rw [← isSome_parentName found] at apartFlags apart
  refine ⟨unreserved, ⟨ancestors, Schema.ancestors_eq_ok_iff.1 found⟩, fun f hf flag => ?_,
    fun f hf data => ?_, ?_, fun name named => ?_, fun f hf data custom => ?_⟩
  · obtain ⟨slot, -, made⟩ := exists_of_mem_left eachFlag (List.mem_filter.2 ⟨hf, flag⟩)
    exact exists_flagSlot_iff.1 ⟨slot, made⟩
  · obtain ⟨slot, -, made⟩ := exists_of_mem_left each (List.mem_filter.2 ⟨hf, by simp [data]⟩)
    exact exists_fieldSlot_iff.1 ⟨slot, made⟩
  · exact (nodup_idents_iff eachFlag each (nodup_base m)).2
      ⟨⟨nodupFlags, apartFlags⟩, nodup, apart⟩
  · simpa using clash.1 name named
  · have mem := (mem_customNames_iff each).2 ⟨f, hf, data, custom, rfl⟩
    simpa [and_assoc] using clash.2 f.typeName mem

/-- A message with which nothing is wrong can be laid out. -/
theorem exists_plan_of_wellFormed {s : Schema} {m : MessageDecl}
    (wellFormed : s.WellFormed (·.IsCarried s) m) : ∃ l, plan s m = .ok l := by
  obtain ⟨ancestors, descends⟩ := wellFormed.descends
  have found := Schema.ancestors_eq_ok_iff.2 descends
  obtain ⟨flags, eachFlag⟩ : ∃ flags, List.Forall₂ (fun f slot => flagSlot m.name f = .ok slot)
      (m.fields.filter (·.isFlag)) flags := by
    refine exists_forall₂_of_forall fun f hf => exists_flagSlot_iff.2 ?_
    obtain ⟨hf, flag⟩ := List.mem_filter.1 hf
    exact wellFormed.flags f hf flag
  obtain ⟨fields, each⟩ : ∃ fields, List.Forall₂ (fun f slot => fieldSlot s m.name f = .ok slot)
      (m.fields.filter (!·.isFlag)) fields := by
    refine exists_forall₂_of_forall fun f hf => exists_fieldSlot_iff.2 ?_
    obtain ⟨hf, data⟩ := List.mem_filter.1 hf
    exact wellFormed.fields f hf (by simpa using data)
  obtain ⟨⟨nodupFlags, apartFlags⟩, nodup, apart⟩ :=
    (nodup_idents_iff eachFlag each (nodup_base m)).1 wellFormed.identifiers
  rw [isSome_parentName found] at apartFlags apart
  refine plan_of_steps wellFormed.unreserved found
    (claimEach_of_nodup eachFlag nodupFlags apartFlags) (claimEach_of_nodup each nodup apart) ?_
  rw [firstClash?_importsOf_eq_none_iff, ← parentName_eq_of_ancestors found]
  refine ⟨fun name named => ?_, fun name mem => ?_⟩
  · simpa using wellFormed.parent name named
  · obtain ⟨f, hf, data, custom, rfl⟩ := (mem_customNames_iff each).1 mem
    simpa [and_assoc] using wellFormed.types f hf data custom

/-- A message can be laid out exactly if nothing is wrong with it. -/
theorem exists_plan_iff (s : Schema) (m : MessageDecl) :
    (∃ l, plan s m = .ok l) ↔ s.WellFormed (·.IsCarried s) m :=
  ⟨fun ⟨_, planned⟩ => wellFormed_of_plan planned, exists_plan_of_wellFormed⟩

/-- A message whose field has the type `int` but no method, and a custom type of that name. -/
def shadowed : Schema where
  messages := [{ name := "M", protocolId := 1, fields := [.object "x" "int"] }]
  types := [{ name := "int" }]

/-- A declared type does not do for a field if its name is that of a primitive type. -/
theorem not_exists_plan_iff_of_declared :
    ¬ ∀ (s : Schema) (m : MessageDecl), (∃ l, plan s m = .ok l) ↔
      s.WellFormed (fun f => f.FitsMethod ∨ f.HasDeclaredType s) m := by
  intro equivalent
  let x : FieldDecl := .object "x" "int"
  let m : MessageDecl := { name := "M", protocolId := 1, fields := [x] }
  have declared : x.HasDeclaredType shadowed := ⟨{ name := "int" }, List.mem_cons_self, rfl⟩
  have wellFormed : shadowed.WellFormed (fun f => f.FitsMethod ∨ f.HasDeclaredType shadowed) m :=
    { unreserved := by decide
      descends := ⟨[], .root rfl, by decide⟩
      flags := List.forall_mem_singleton.2 nofun
      fields := List.forall_mem_singleton.2 fun _ => .inr declared
      identifiers := List.nodup_singleton _
      parent := nofun
      types := List.forall_mem_singleton.2 fun _ _ => ⟨by decide, by decide, nofun⟩ }
  obtain ⟨l, planned⟩ := (equivalent shadowed m).2 wellFormed
  rcases (wellFormed_of_plan planned).fields x List.mem_cons_self rfl with
    ⟨-, p, method, -, written, -⟩ | ⟨custom, -⟩
  · exact nomatch written
  · exact custom .int rfl

end Layout

end WireCodec
