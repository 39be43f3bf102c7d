import Mathlib.Data.List.Forall2
import Mathlib.Data.List.Nodup
import WireCodec.Layout.Plan
import WireCodec.Program.Run
import WireCodec.Source.Artifact

/-!
# What planning guarantees

A layout that comes out of planning has sound slots: every flag has a bit of its byte, every field
has a type, an initial value and an encoding that belong together, and no two slots share an
identifier. When a schema is generated, each of its messages has a lineage of such layouts, and a
layout has a parent exactly if there is a layout behind it.
-/

namespace WireCodec

/-! ## Computations that may fail -/

theorem bind_eq_ok_iff {ε α β : Type} {x : Except ε α} {k : α → Except ε β} {b : β} :
    x >>= k = .ok b ↔ ∃ a, x = .ok a ∧ k a = .ok b := by
  cases x with
  | error e => simp [bind, Except.bind]
  | ok a => simp [bind, Except.bind]

theorem map_eq_ok_iff {ε α β : Type} {x : Except ε α} {f : α → β} {b : β} :
    f <$> x = .ok b ↔ ∃ a, x = .ok a ∧ f a = b := by
  cases x with
  | error e => simp
  | ok a => simp

theorem mapM_eq_ok_iff {ε α β : Type} {f : α → Except ε β} {xs : List α} {ys : List β} :
    xs.mapM f = .ok ys ↔ List.Forall₂ (fun x y => f x = .ok y) xs ys := by
  induction xs generalizing ys with
  | nil => cases ys <;> simp [pure, Except.pure]
  | cons x xs ih =>
    rw [List.mapM_cons, bind_eq_ok_iff]
    constructor
    · rintro ⟨y, hy, h⟩
      obtain ⟨zs, hzs, h⟩ := bind_eq_ok_iff.1 h
      cases h
      exact .cons hy (ih.1 hzs)
    · rintro (_ | ⟨hy, hys⟩)
      exact ⟨_, hy, bind_eq_ok_iff.2 ⟨_, ih.2 hys, rfl⟩⟩

theorem exists_of_isOk {ε α : Type} {x : Except ε α} (h : x.isOk) : ∃ a, x = .ok a := by
  cases x with
  | error e => exact nomatch h
  | ok a => exact ⟨a, rfl⟩

theorem exists_of_mem_right {α β : Type} {R : α → β → Prop} {xs : List α} {ys : List β}
    (h : List.Forall₂ R xs ys) {y : β} (hy : y ∈ ys) : ∃ x ∈ xs, R x y := by
  induction h with
  | nil => exact nomatch hy
  | cons hxy _ ih =>
    rcases List.mem_cons.1 hy with rfl | hy
    · exact ⟨_, List.mem_cons_self, hxy⟩
    · obtain ⟨x, hx, hxy⟩ := ih hy
      exact ⟨x, List.mem_cons_of_mem _ hx, hxy⟩

theorem exists_of_mem_left {α β : Type} {R : α → β → Prop} {xs : List α} {ys : List β}
    (h : List.Forall₂ R xs ys) {x : α} (hx : x ∈ xs) : ∃ y ∈ ys, R x y :=
  exists_of_mem_right h.flip hx

theorem forall₂_imp_of_mem {α β : Type} {R S : α → β → Prop} {xs : List α} {ys : List β}
    (h : List.Forall₂ R xs ys) (imp : ∀ x ∈ xs, ∀ y, R x y → S x y) : List.Forall₂ S xs ys := by
  induction h with
  | nil => exact .nil
  | cons hxy _ ih =>
    obtain ⟨first, others⟩ := List.forall_mem_cons.1 imp
    exact .cons (first _ hxy) (ih others)

theorem map_eq_map_of_forall₂ {α β γ : Type} {R : α → β → Prop} {f : α → γ} {g : β → γ}
    {xs : List α} {ys : List β} (h : List.Forall₂ R xs ys) (same : ∀ x y, R x y → f x = g y) :
    xs.map f = ys.map g := by
  induction h with
  | nil => rfl
  | cons hxy _ ih => rw [List.map_cons, List.map_cons, same _ _ hxy, ih]

theorem zipWith_eq_map_of_forall₂ {α β γ : Type} {R : α → β → Prop} {f : α → β → γ} {g : α → γ}
    {xs : List α} {ys : List β} (h : List.Forall₂ R xs ys) (same : ∀ x y, R x y → f x y = g x) :
    List.zipWith f xs ys = xs.map g := by
  induction h with
  | nil => rfl
  | cons hxy _ ih => rw [List.zipWith_cons_cons, List.map_cons, same _ _ hxy, ih]

theorem exists_forall₂_of_forall {α β : Type} {R : α → β → Prop} {xs : List α}
    (h : ∀ x ∈ xs, ∃ y, R x y) : ∃ ys, List.Forall₂ R xs ys := by
  induction xs with
  | nil => exact ⟨[], .nil⟩
  | cons x xs ih =>
    obtain ⟨⟨y, hy⟩, rest⟩ := List.forall_mem_cons.1 h
    obtain ⟨ys, hys⟩ := ih rest
    exact ⟨y :: ys, .cons hy hys⟩

/-! ## Lists without repetition -/

section Nodup

variable {α β : Type} {f : α → β} {xs before after : List α} {x : α}

theorem nodup_concat_iff : (xs ++ [x]).Nodup ↔ xs.Nodup ∧ x ∉ xs := by
  rw [← List.concat_eq_append, List.nodup_concat, and_comm]

theorem forall_ne_of_nodup_map (nodup : ((before ++ x :: after).map f).Nodup) :
    ∀ y ∈ before ++ after, f y ≠ f x := by
  rw [List.map_append, List.map_cons, List.nodup_middle, List.nodup_cons,
    ← List.map_append] at nodup
  exact fun y hy same => nodup.1 (List.mem_map.2 ⟨y, hy, same⟩)

variable [DecidableEq β]

theorem filter_eq_singleton (nodup : (xs.map f).Nodup) (mem : x ∈ xs) :
    xs.filter (f · = f x) = [x] := by
  obtain ⟨before, after, rfl⟩ := List.append_of_mem mem
  have others := forall_ne_of_nodup_map nodup
  rw [List.forall_mem_append] at others
  rw [List.filter_append, List.filter_cons_of_pos (by simp), List.filter_eq_nil_iff.2,
    List.filter_eq_nil_iff.2, List.nil_append]
  · simpa using others.2
  · simpa using others.1

/-- What is looked for by a key of its own is found. -/
theorem find?_key_of_mem (nodup : (xs.map f).Nodup) (mem : x ∈ xs) :
    xs.find? (f · = f x) = some x := by
  rw [← List.head?_filter, filter_eq_singleton nodup mem]
  rfl

end Nodup

namespace Layout

/-! ## Identifiers -/

/-- Slots that were laid out one by one have identifiers of their own. -/
theorem claimEach_ok {α : Type} {message : String} {lay : FieldDecl → Except SchemaError α}
    {ident : α → String} {taken taken' : List String} {fs : List FieldDecl} {slots : List α}
    (h : claimEach message lay ident taken fs = .ok (slots, taken')) :
    List.Forall₂ (fun f slot => lay f = .ok slot) fs slots ∧ (slots.map ident).Nodup ∧
      (∀ i ∈ slots.map ident, i ∉ taken) ∧ taken' = (slots.map ident).reverse ++ taken := by
  induction fs generalizing taken slots with
  | nil =>
    cases h
    exact ⟨.nil, .nil, by simp, rfl⟩
  | cons f fs ih =>
    rw [claimEach] at h
    obtain ⟨slot, laid, h⟩ := bind_eq_ok_iff.1 h
    by_cases new : ident slot ∈ taken
    · simp only [if_pos new] at h
      exact nomatch h
    · simp only [if_neg new] at h
      obtain ⟨⟨rest, final⟩, hrest, h⟩ := bind_eq_ok_iff.1 h
      cases h
      obtain ⟨all, nodup, apart, rfl⟩ := ih hrest
      simp only [List.mem_cons, not_or] at apart
      refine ⟨.cons laid all, ?_, ?_, by simp⟩
      · rw [List.map_cons, List.nodup_cons]
        exact ⟨fun mem => (apart _ mem).1 rfl, nodup⟩
      · rw [List.map_cons, List.forall_mem_cons]
        exact ⟨new, fun i hi => (apart i hi).2⟩

/-! ## Slots -/

/-- A flag that is laid out has a position, which determines its bit. -/
theorem flagSlot_ok {message : String} {f : FieldDecl} {slot : FlagSlot}
    (h : flagSlot message f = .ok slot) : ∃ position, f.flagPosition = some position ∧
      slot = { name := f.name, ident := identifier f.name, position,
               bit := (position % 8).toUInt8 } := by
  unfold flagSlot at h
  split_ifs at h
  split at h
  · exact nomatch h
  · rename_i position found
    cases h
    exact ⟨position, found, rfl⟩

theorem bit_le_of_flagSlot {message : String} {f : FieldDecl} {slot : FlagSlot}
    (h : flagSlot message f = .ok slot) : slot.bit ≤ FlagByte.maxBit := by
  obtain ⟨position, -, rfl⟩ := flagSlot_ok h
  show ((position % 8).toUInt8).toNat ≤ 7
  rw [UInt32.toNat_toUInt8, UInt32.toNat_mod]
  have := Nat.mod_lt position.toNat (show 8 % 2 ^ 32 > 0 by decide)
  simp at this ⊢
  omega

theorem writeMethod_ok {message : String} {f : FieldDecl} {p : Primitive} {method : Method}
    (h : writeMethod message f p = .ok method) :
    f.writeMethod.bind Method.ofName? = some method ∧ method.accepts p := by
  unfold writeMethod at h
  split at h
  · cases h
  · rename_i name named
    split at h
    · cases h
    · rename_i method' found
      split_ifs at h with accepted
      cases h
      exact ⟨by rw [named, Option.bind_some, found], accepted⟩

/-- A field that is no flag is laid out as one of a primitive type or as one of a custom type. -/
theorem fieldSlot_ok {s : Schema} {message : String} {f : FieldDecl} {slot : FieldSlot}
    (h : fieldSlot s message f = .ok slot) :
    (∃ p method, Primitive.ofTag? f.typeName = some p ∧ f.isOpen = false ∧
        writeMethod message f p = .ok method ∧ slot = primitiveSlot f method p) ∨
      ∃ t : TypeDecl, Primitive.ofTag? f.typeName = none ∧ s.type? f.typeName = some t ∧
        slot = customSlot f ⟨t.name, t.package⟩ := by
  unfold fieldSlot at h
  split at h
  case h_1 p tag =>
    split_ifs at h with isOpen
    obtain ⟨method, chosen, rfl⟩ := map_eq_ok_iff.1 h
    exact .inl ⟨p, method, tag, Bool.eq_false_iff.2 isOpen, chosen, rfl⟩
  case h_2 tag =>
    split at h
    · exact nomatch h
    · rename_i t found
      cases h
      exact .inr ⟨t, tag, found, rfl⟩

end Layout

/-- The type, the initial value and the encoding of a field belong together. -/
inductive FieldSlot.Coherent (f : FieldSlot) : Prop
  | primitive (method : Method) (p : Primitive) (accepted : method.accepts p)
    (type : f.type = .primitive p) (initial : f.initial = .default p)
    (encoding : f.encoding = .primitive method p)
  | primitiveVector (method : Method) (p : Primitive) (accepted : method.accepts p)
    (type : f.type = .sequence (.primitive p)) (initial : f.initial = .emptySequence)
    (encoding : f.encoding = .primitiveVector method p)
  | object (t : TypeRef) (type : f.type = .custom t) (initial : f.initial = .newInstance t)
    (encoding : f.encoding = .object t)
  | polymorphic (t : TypeRef) (type : f.type = .polymorphic t)
    (initial : f.initial = .boxedInstance t) (encoding : f.encoding = .polymorphic t)
  | closedVector (t : TypeRef) (type : f.type = .sequence (.custom t))
    (initial : f.initial = .emptySequence) (encoding : f.encoding = .objectVector t false)
  | openVector (t : TypeRef) (type : f.type = .sequence (.polymorphic t))
    (initial : f.initial = .emptySequence) (encoding : f.encoding = .objectVector t true)

namespace Layout

theorem coherent_of_fieldSlot {s : Schema} {message : String} {f : FieldDecl} {slot : FieldSlot}
    (h : fieldSlot s message f = .ok slot) : slot.Coherent := by
  obtain ⟨p, method, -, -, chosen, rfl⟩ | ⟨t, -, -, rfl⟩ := fieldSlot_ok h
  · have accepted := (writeMethod_ok chosen).2
    unfold primitiveSlot
    split_ifs
    · exact .primitiveVector method p accepted rfl rfl rfl
    · exact .primitive method p accepted rfl rfl rfl
  · unfold customSlot
    cases vector : f.isVector <;> cases isOpen : f.isOpen
    · exact .object ⟨t.name, t.package⟩ rfl rfl rfl
    · exact .polymorphic ⟨t.name, t.package⟩ rfl rfl rfl
    · exact .closedVector ⟨t.name, t.package⟩ rfl rfl rfl
    · exact .openVector ⟨t.name, t.package⟩ rfl rfl rfl

/-! ## Layouts -/

/-- The parent of a message with the given ancestors. -/
def parentOf (ancestors : List MessageDecl) : Option TypeRef :=
  ancestors.head?.map fun p => ⟨p.name, p.package⟩

/-- The steps of a planning that succeeds. -/
theorem plan_ok {s : Schema} {m : MessageDecl} {l : Layout} (h : plan s m = .ok l) :
    m.name ∉ reservedNames ∧ ∃ ancestors flags fields taken taken',
      s.ancestors m = .ok ancestors ∧
      claimEach m.name (flagSlot m.name) FlagSlot.ident
        (if (parentOf ancestors).isSome then [baseField] else [])
        (m.fields.filter (·.isFlag)) = .ok (flags, taken) ∧
      claimEach m.name (fieldSlot s m.name) FieldSlot.ident taken
        (m.fields.filter (!·.isFlag)) = .ok (fields, taken') ∧
      firstClash? (m.name :: reservedNames)
        ((importsOf (parentOf ancestors) fields).map (·.type.name)) = none ∧
      l = { parent := parentOf ancestors, flags := flags.mergeSort (·.position ≤ ·.position),
            fields, imports := importsOf (parentOf ancestors) fields } := by
  unfold plan at h
  by_cases reserved : m.name ∈ reservedNames
  · simp only [if_pos reserved] at h
    exact nomatch h
  simp only [if_neg reserved] at h
  obtain ⟨ancestors, hancestors, h⟩ := bind_eq_ok_iff.1 h
  rw [List.partition_eq_filter_filter] at h
  obtain ⟨⟨flags, taken⟩, hflags, h⟩ := bind_eq_ok_iff.1 h
  obtain ⟨⟨fields, taken'⟩, hfields, h⟩ := bind_eq_ok_iff.1 h
  refine ⟨reserved, ancestors, flags, fields, taken, taken', hancestors, hflags, hfields, ?_⟩
  split at h
  · exact nomatch h
  · rename_i clash
    cases h
    exact ⟨clash, rfl⟩

/-- The slots of a layout are as planning makes them. -/
structure Sound (l : Layout) : Prop where
  bit_le : ∀ f ∈ l.flags, f.bit ≤ FlagByte.maxBit
  coherent : ∀ f ∈ l.fields, f.Coherent
  nodup : (l.flags.map (·.ident) ++ l.fields.map (·.ident)).Nodup

theorem sound_of_plan {s : Schema} {m : MessageDecl} {l : Layout} (h : plan s m = .ok l) :
    l.Sound := by
  obtain ⟨-, ancestors, flags, fields, taken, taken', -, hflags, hfields, -, rfl⟩ := plan_ok h
  obtain ⟨laidFlags, nodupFlags, -, rfl⟩ := claimEach_ok hflags
  obtain ⟨laidFields, nodupFields, apart, -⟩ := claimEach_ok hfields
  have sorted := flags.mergeSort_perm (·.position ≤ ·.position)
  refine ⟨fun f hf => ?_, fun f hf => ?_, ?_⟩
  · obtain ⟨d, -, laid⟩ := exists_of_mem_right laidFlags (sorted.mem_iff.1 hf)
    exact bit_le_of_flagSlot laid
  · obtain ⟨d, -, laid⟩ := exists_of_mem_right laidFields hf
    exact coherent_of_fieldSlot laid
  · refine List.nodup_append.2 ⟨(sorted.map _).nodup_iff.2 nodupFlags, nodupFields, ?_⟩
    rintro i hi _ hi' rfl
    refine apart i hi' (List.mem_append_left _ (List.mem_reverse.2 ?_))
    exact (sorted.map _).mem_iff.1 hi

end Layout

/-! ## Ancestors -/

namespace Schema

section Walk

variable {s : Schema} {start : String} {met : List String} {m parent : MessageDecl} {name : String}

theorem ancestorsFrom_root (root : m.parentName = none) : s.ancestorsFrom start met m = .ok [] := by
  rw [ancestorsFrom, root]

theorem ancestorsFrom_unresolved (named : m.parentName = some name)
    (missing : s.message? name = none) :
    s.ancestorsFrom start met m = .error (.unresolvedParent m.name name) := by
  rw [ancestorsFrom, named]
  simp only
  split
  · rfl
  · simp_all

theorem ancestorsFrom_cycle (named : m.parentName = some name)
    (found : s.message? name = some parent) (again : parent.name ∈ met) :
    s.ancestorsFrom start met m = .error (.inheritanceCycle start) := by
  rw [ancestorsFrom, named]
  simp only
  split
  · simp_all
  · simp_all

theorem ancestorsFrom_step (named : m.parentName = some name)
    (found : s.message? name = some parent) (new : parent.name ∉ met) :
    s.ancestorsFrom start met m =
      (parent :: ·) <$> s.ancestorsFrom start (parent.name :: met) parent := by
  rw [ancestorsFrom, named]
  simp only
  split
  · simp_all
  · simp_all

end Walk

/-- A walk that succeeds with a parent goes on from the parent. -/
theorem ancestorsFrom_eq_cons {s : Schema} {start : String} {met : List String}
    {m parent : MessageDecl} {ancestors : List MessageDecl}
    (h : s.ancestorsFrom start met m = .ok (parent :: ancestors)) :
    (∃ name, m.parentName = some name ∧ s.message? name = some parent) ∧ parent.name ∉ met ∧
      s.ancestorsFrom start (parent.name :: met) parent = .ok ancestors := by
  match named : m.parentName with
  | none =>
    rw [ancestorsFrom_root named] at h
    exact nomatch h
  | some name =>
    match found : s.message? name with
    | none =>
      rw [ancestorsFrom_unresolved named found] at h
      exact nomatch h
    | some p =>
      by_cases new : p.name ∈ met
      · rw [ancestorsFrom_cycle named found new] at h
        exact nomatch h
      · rw [ancestorsFrom_step named found new] at h
        obtain ⟨rest, hrest, same⟩ := map_eq_ok_iff.1 h
        cases same
        exact ⟨⟨name, rfl, found⟩, new, hrest⟩

/-- A walk that succeeds at once starts from a message without a parent. -/
theorem parentName_eq_none_of_ancestorsFrom {s : Schema} {start : String} {met : List String}
    {m : MessageDecl} (h : s.ancestorsFrom start met m = .ok []) : m.parentName = none := by
  match named : m.parentName with
  | none => rfl
  | some name =>
    match found : s.message? name with
    | none =>
      rw [ancestorsFrom_unresolved named found] at h
      exact nomatch h
    | some p =>
      by_cases new : p.name ∈ met
      · rw [ancestorsFrom_cycle named found new] at h
        exact nomatch h
      · rw [ancestorsFrom_step named found new] at h
        obtain ⟨rest, -, same⟩ := map_eq_ok_iff.1 h
        exact nomatch same

/-- A walk that succeeds does so with fewer names forbidden and on behalf of any message. -/
theorem ancestorsFrom_ok_of_subset {s : Schema} {start start' : String} {met met' : List String}
    {m : MessageDecl} {ancestors : List MessageDecl}
    (h : s.ancestorsFrom start met m = .ok ancestors) (sub : met' ⊆ met) :
    s.ancestorsFrom start' met' m = .ok ancestors := by
  induction ancestors generalizing met met' m with
  | nil => exact ancestorsFrom_root (parentName_eq_none_of_ancestorsFrom h)
  | cons parent ancestors ih =>
    obtain ⟨⟨name, named, found⟩, new, rest⟩ := ancestorsFrom_eq_cons h
    rw [ancestorsFrom_step named found fun again => new (sub again), ih rest]
    · rfl
    · exact List.cons_subset_cons _ sub

/-- The ancestors of a message are its parent and the ancestors of that. -/
theorem ancestors_eq_cons {s : Schema} {m parent : MessageDecl} {ancestors : List MessageDecl}
    (h : s.ancestors m = .ok (parent :: ancestors)) :
    (∃ name, m.parentName = some name ∧ s.message? name = some parent) ∧
      s.ancestors parent = .ok ancestors := by
  obtain ⟨named, -, rest⟩ := ancestorsFrom_eq_cons h
  exact ⟨named, ancestorsFrom_ok_of_subset rest (by simp)⟩

theorem mem_messages_of_ancestors {s : Schema} {m : MessageDecl} {ancestors : List MessageDecl}
    (h : s.ancestors m = .ok ancestors) : ∀ a ∈ ancestors, a ∈ s.messages := by
  induction ancestors generalizing m with
  | nil => simp
  | cons parent ancestors ih =>
    obtain ⟨⟨name, -, found⟩, rest⟩ := ancestors_eq_cons h
    exact List.forall_mem_cons.2 ⟨List.mem_of_find?_eq_some found, ih rest⟩

end Schema

/-! ## Lineages -/

namespace Layout

/-- A message's layout in front of those of its ancestors: all sound, and only the last one without
a parent. -/
def Lineage : List Layout → Prop
  | [] => True
  | l :: ls => l.Sound ∧ (l.parent.isSome ↔ ls ≠ []) ∧ Lineage ls

theorem Lineage.eq_nil {l : Layout} {ls : List Layout} (h : Lineage (l :: ls))
    (root : ¬ l.parent.isSome) : ls = [] := by
  by_contra more
  exact root (h.2.1.2 more)

theorem parent_eq_of_plan {s : Schema} {m : MessageDecl} {ancestors : List MessageDecl} {l : Layout}
    (h : s.ancestors m = .ok ancestors) (hl : plan s m = .ok l) :
    l.parent = parentOf ancestors := by
  obtain ⟨-, ancestors', flags, fields, taken, taken', h', -, -, -, rfl⟩ := plan_ok hl
  cases h.symm.trans h'
  rfl

/-- The layouts of a message and of its ancestors form a lineage. -/
theorem lineage_of_forall₂ {s : Schema} {m : MessageDecl} {ancestors : List MessageDecl}
    {l : Layout} {ls : List Layout} (h : s.ancestors m = .ok ancestors) (hl : plan s m = .ok l)
    (hls : List.Forall₂ (fun a l => plan s a = .ok l) ancestors ls) : Lineage (l :: ls) := by
  induction hls generalizing m l with
  | nil =>
    refine ⟨sound_of_plan hl, ?_, trivial⟩
    rw [parent_eq_of_plan h hl]
    simp [parentOf]
  | cons planned rest ih =>
    refine ⟨sound_of_plan hl, ?_, ih (Schema.ancestors_eq_cons h).2 planned⟩
    rw [parent_eq_of_plan h hl]
    simp [parentOf]

end Layout

namespace Schema

theorem exists_plan_of_generate {s : Schema} {settings : Settings} {o : Output}
    (h : s.generate settings = .ok o) {m : MessageDecl} (hm : m ∈ s.messages) :
    ∃ l, Layout.plan s m = .ok l := by
  obtain ⟨plan, -, h⟩ := bind_eq_ok_iff.1 h
  obtain ⟨artifacts, each, -⟩ := bind_eq_ok_iff.1 h
  obtain ⟨a, -, made⟩ := exists_of_mem_left (mapM_eq_ok_iff.1 each) hm
  obtain ⟨l, planned, -⟩ := bind_eq_ok_iff.1 made
  exact ⟨l, planned⟩

/-- Each message of a schema that can be generated has its lineage of layouts, its own layout in
front. -/
theorem exists_lineage_of_generate {s : Schema} {settings : Settings} {o : Output}
    (h : s.generate settings = .ok o) {m : MessageDecl} (hm : m ∈ s.messages) :
    ∃ l ls, Layout.plan s m = .ok l ∧ s.lineage m = .ok (l :: ls) ∧ Layout.Lineage (l :: ls) := by
  obtain ⟨l, planned⟩ := exists_plan_of_generate h hm
  obtain ⟨-, ancestors, flags, fields, taken, taken', found, -, -, -, -⟩ := Layout.plan_ok planned
  have each : ∀ a ∈ ancestors, ∃ l, Layout.plan s a = .ok l := fun a ha =>
    exists_plan_of_generate h (mem_messages_of_ancestors found a ha)
  obtain ⟨ls, hls⟩ := exists_forall₂_of_forall each
  refine ⟨l, ls, planned, ?_, Layout.lineage_of_forall₂ found planned hls⟩
  unfold lineage
  rw [found]
  exact mapM_eq_ok_iff.2 (.cons planned hls)

theorem lineage_of_generate {s : Schema} {settings : Settings} {o : Output}
    (h : s.generate settings = .ok o) {m : MessageDecl} (hm : m ∈ s.messages) :
    ∃ layouts, s.lineage m = .ok layouts ∧ Layout.Lineage layouts := by
  obtain ⟨l, ls, -, found, lineage⟩ := exists_lineage_of_generate h hm
  exact ⟨l :: ls, found, lineage⟩

end Schema

end WireCodec
