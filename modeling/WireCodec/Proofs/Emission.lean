import WireCodec.Proofs.WellFormed
import WireCodec.Proofs.WireLayout

/-!
# Layouts and the programs made of them

Planning turns the declaration of a message into slots: flags in the order of their positions, every
other field as its declaration prescribes, and one import for each custom type at its first use
(`MessageDecl.LaidOutAs`). The three programs of a layout run in step: what stands at one place of
them treats one slot (`Program.InStep`).
-/

namespace WireCodec

/-! ## Slots -/

namespace FieldDecl

/-- The slot of a flag. -/
structure IsFlagSlot (f : FieldDecl) (slot : FlagSlot) : Prop where
  name : slot.name = f.name
  ident : slot.ident = identifier f.name
  position : f.flagPosition = some slot.position
  bit : slot.bit.toNat = slot.position.toNat % 8

/-- The field has the primitive type `p` and names a method that carries values of its kind. -/
structure CarriedBy (f : FieldDecl) (method : Method) (p : Primitive) : Prop where
  type : f.typeName = p.tag
  written : f.writeMethod = some method.name
  kind : method.kind = p.kind

/-- The field has the custom type `t`, the first of its name in the schema. -/
structure RefersTo (f : FieldDecl) (s : Schema) (t : TypeRef) : Prop where
  custom : f.HasCustomType
  declared : ∃ d, s.type? f.typeName = some d ∧ t = ⟨d.name, d.package⟩

/-- The table by which a field that is no flag gets its type, whether that is custom, its initial
value and its encoding. -/
inductive Becomes (s : Schema) (f : FieldDecl) : FieldType → Bool → Initial → Encoding → Prop
  | primitive {method : Method} {p : Primitive} (vector : f.isVector = false)
    (isOpen : f.isOpen = false) (carried : f.CarriedBy method p) :
    Becomes s f (.primitive p) false (.default p) (.primitive method p)
  | primitiveVector {method : Method} {p : Primitive} (vector : f.isVector = true)
    (isOpen : f.isOpen = false) (carried : f.CarriedBy method p) :
    Becomes s f (.sequence (.primitive p)) false .emptySequence (.primitiveVector method p)
  | object {t : TypeRef} (vector : f.isVector = false) (isOpen : f.isOpen = false)
    (refers : f.RefersTo s t) : Becomes s f (.custom t) true (.newInstance t) (.object t)
  | polymorphic {t : TypeRef} (vector : f.isVector = false) (isOpen : f.isOpen = true)
    (refers : f.RefersTo s t) :
    Becomes s f (.polymorphic t) true (.boxedInstance t) (.polymorphic t)
  | closedVector {t : TypeRef} (vector : f.isVector = true) (isOpen : f.isOpen = false)
    (refers : f.RefersTo s t) :
    Becomes s f (.sequence (.custom t)) true .emptySequence (.objectVector t false)
  | openVector {t : TypeRef} (vector : f.isVector = true) (isOpen : f.isOpen = true)
    (refers : f.RefersTo s t) :
    Becomes s f (.sequence (.polymorphic t)) true .emptySequence (.objectVector t true)

/-- The slot of a field that is no flag. -/
structure IsFieldSlot (s : Schema) (f : FieldDecl) (slot : FieldSlot) : Prop where
  name : slot.name = f.name
  ident : slot.ident = identifier f.name
  becomes : f.Becomes s slot.type slot.isCustom slot.initial slot.encoding

end FieldDecl

namespace Layout

variable {s : Schema} {message : String} {f : FieldDecl}

theorem isFlagSlot_of_flagSlot {slot : FlagSlot} (h : flagSlot message f = .ok slot) :
    f.IsFlagSlot slot := by
  obtain ⟨position, placed, rfl⟩ := flagSlot_ok h
  refine ⟨rfl, rfl, placed, ?_⟩
  have := Nat.mod_lt position.toNat (show 8 > 0 by decide)
  simp only [UInt32.toNat_toUInt8, UInt32.toNat_mod, UInt32.reduceToNat]
  omega

theorem carriedBy_of_writeMethod {p : Primitive} {method : Method}
    (tag : Primitive.ofTag? f.typeName = some p) (h : writeMethod message f p = .ok method) :
    f.CarriedBy method p := by
  obtain ⟨named, accepted⟩ := writeMethod_ok h
  obtain ⟨name, written, found⟩ := Option.bind_eq_some_iff.1 named
  obtain rfl := Method.ofName?_eq_some_iff.1 found
  exact ⟨Primitive.ofTag?_eq_some_iff.1 tag, written, eq_of_beq accepted⟩

theorem isFieldSlot_of_fieldSlot {slot : FieldSlot} (h : fieldSlot s message f = .ok slot) :
    f.IsFieldSlot s slot := by
  obtain ⟨p, method, tag, isOpen, chosen, rfl⟩ | ⟨t, tag, found, rfl⟩ := fieldSlot_ok h
  · have carried := carriedBy_of_writeMethod tag chosen
    unfold primitiveSlot
    cases vector : f.isVector with
    | false => exact ⟨rfl, rfl, .primitive vector isOpen carried⟩
    | true => exact ⟨rfl, rfl, .primitiveVector vector isOpen carried⟩
  · have refers : f.RefersTo s ⟨t.name, t.package⟩ :=
      ⟨Primitive.ofTag?_eq_none_iff.1 tag, t, found, rfl⟩
    unfold customSlot
    cases vector : f.isVector <;> cases isOpen : f.isOpen
    · exact ⟨rfl, rfl, .object vector isOpen refers⟩
    · exact ⟨rfl, rfl, .polymorphic vector isOpen refers⟩
    · exact ⟨rfl, rfl, .closedVector vector isOpen refers⟩
    · exact ⟨rfl, rfl, .openVector vector isOpen refers⟩

end Layout

/-! ## Imports -/

/-- The members of `uses`, each once, in the order in which they come up first. -/
structure FirstUses (uses ts : List TypeRef) : Prop where
  nodup : ts.Nodup
  mem_iff : ∀ t, t ∈ ts ↔ t ∈ uses
  ordered : ts.Pairwise fun t t' => uses.idxOf t < uses.idxOf t'

/-- The custom type that a field refers to. -/
def FieldDecl.customType? (s : Schema) (f : FieldDecl) : Option TypeRef :=
  match Primitive.ofTag? f.typeName with
  | some _ => none
  | none => (s.type? f.typeName).map fun t => ⟨t.name, t.package⟩

/-- The custom types of the fields that are no flags, in the author's order. -/
def MessageDecl.customTypes (s : Schema) (m : MessageDecl) : List TypeRef :=
  m.fieldDecls.filterMap (FieldDecl.customType? s)

/-- The parent of a message as its module refers to it. -/
def MessageDecl.parentRef (s : Schema) (m : MessageDecl) : Option TypeRef :=
  (m.parentName.bind s.message?).map fun p => ⟨p.name, p.package⟩

/-- Types of one name are one type. -/
def NamesTell (ts : List TypeRef) : Prop := ∀ t ∈ ts, ∀ t' ∈ ts, t.name = t'.name → t = t'

theorem firstUses_firstOfEachName {ts : List TypeRef} (h : NamesTell ts) :
    FirstUses ts (Layout.firstOfEachName ts) := by
  induction ts with
  | nil => exact ⟨.nil, fun _ => .rfl, .nil⟩
  | cons t ts ih =>
    obtain ⟨nodup, mem_iff, ordered⟩ :=
      ih fun t ht t' ht' => h t (List.mem_cons_of_mem _ ht) t' (List.mem_cons_of_mem _ ht')
    -- of the later uses those that are not `t` itself remain, since names tell types apart
    have later : ∀ u, u ∈ (Layout.firstOfEachName ts).filter (·.name ≠ t.name) ↔ u ∈ ts ∧ u ≠ t := by
      intro u
      rw [List.mem_filter, mem_iff, decide_eq_true_iff]
      refine and_congr_right fun mem => not_congr ⟨fun same => ?_, congrArg _⟩
      exact h u (List.mem_cons_of_mem _ mem) t List.mem_cons_self same
    rw [Layout.firstOfEachName]
    refine ⟨List.nodup_cons.2 ⟨fun again => ((later t).1 again).2 rfl, nodup.filter _⟩, ?_, ?_⟩
    · intro u
      rw [List.mem_cons, List.mem_cons, later]
      by_cases same : u = t <;> simp [same]
    · refine List.pairwise_cons.2 ⟨fun u hu => ?_, ?_⟩
      · rw [List.idxOf_cons_self, List.idxOf_cons_ne _ ((later u).1 hu).2.symm]
        exact Nat.succ_pos _
      · refine (ordered.filter _).imp_of_mem fun {u v} hu hv before => ?_
        rw [List.idxOf_cons_ne _ ((later u).1 hu).2.symm,
          List.idxOf_cons_ne _ ((later v).1 hv).2.symm]
        exact Nat.succ_lt_succ before

namespace Layout

variable {s : Schema} {m : MessageDecl} {l : Layout}

theorem customType_eq_of_fieldSlot {message : String} {f : FieldDecl} {slot : FieldSlot}
    (h : fieldSlot s message f = .ok slot) : slot.encoding.customType = f.customType? s := by
  obtain ⟨p, method, tag, -, -, rfl⟩ | ⟨t, tag, found, rfl⟩ := fieldSlot_ok h
  · unfold primitiveSlot FieldDecl.customType?
    rw [tag]
    split_ifs <;> rfl
  · unfold customSlot FieldDecl.customType?
    rw [tag, found]
    split_ifs <;> rfl

theorem customTypes_of_plan (h : plan s m = .ok l) :
    l.fields.filterMap (·.encoding.customType) = m.customTypes s := by
  have each := map_eq_map_of_forall₂ (fields_of_plan h) fun _ _ made =>
    (customType_eq_of_fieldSlot made).symm
  have same := congrArg (List.filterMap id) each
  simp only [List.filterMap_map, Function.id_comp] at same
  exact same.symm

theorem namesTell_customTypes (s : Schema) (m : MessageDecl) : NamesTell (m.customTypes s) := by
  have found : ∀ t ∈ m.customTypes s,
      (s.type? t.name).map (fun d => (⟨d.name, d.package⟩ : TypeRef)) = some t := by
    intro t ht
    obtain ⟨f, -, type⟩ := List.mem_filterMap.1 ht
    unfold FieldDecl.customType? at type
    split at type
    · exact nomatch type
    · obtain ⟨d, hd, rfl⟩ := Option.map_eq_some_iff.1 type
      have declared : d.name = f.typeName := by simpa using List.find?_some hd
      rw [← declared] at hd
      rw [hd, Option.map_some]
  intro t ht t' ht' same
  have := found t ht
  rw [same, found t' ht'] at this
  exact (Option.some.inj this).symm

theorem parent_of_plan (h : plan s m = .ok l) : l.parent = m.parentRef s := by
  obtain ⟨-, ancestors, flags, fields, taken, taken', found, -, -, -, rfl⟩ := plan_ok h
  show parentOf ancestors = _
  rw [MessageDecl.parentRef]
  cases ancestors with
  | nil => rw [Schema.parentName_eq_none_of_ancestorsFrom found]; rfl
  | cons parent ancestors =>
    obtain ⟨⟨name, named, lookup⟩, -⟩ := Schema.ancestors_eq_cons found
    rw [named, Option.bind_some, lookup]
    rfl

theorem imports_of_plan (h : plan s m = .ok l) :
    l.imports = l.parent.toList.map (⟨.parent, ·⟩) ++
      (firstOfEachName (m.customTypes s)).map (⟨.custom, ·⟩) := by
  rw [← customTypes_of_plan h]
  obtain ⟨-, ancestors, flags, fields, taken, taken', -, -, -, -, rfl⟩ := plan_ok h
  rfl

end Layout

/-- The slots and the imports of a layout are those that the declaration of a message asks for. -/
structure MessageDecl.LaidOutAs (s : Schema) (m : MessageDecl) (l : Layout) : Prop where
  parent : l.parent = m.parentRef s
  flags : ∃ flags, m.FlagOrder flags ∧ List.Forall₂ FieldDecl.IsFlagSlot flags l.flags
  fields : List.Forall₂ (FieldDecl.IsFieldSlot s) m.fieldDecls l.fields
  imports : ∃ types, FirstUses (m.customTypes s) types ∧
    l.imports = l.parent.toList.map (⟨.parent, ·⟩) ++ types.map (⟨.custom, ·⟩)

/-! ## Programs -/

/-- What the operations at one place of the programs treat. -/
inductive Slot
  | parent (t : TypeRef)
  | flag (f : FlagSlot)
  | field (f : FieldSlot)

/-- The slots of a layout, the parent first. -/
def Layout.slots (l : Layout) : List Slot :=
  l.parent.toList.map .parent ++ l.flags.map .flag ++ l.fields.map .field

/-- The operations that reset, write and read a slot. -/
inductive Slot.Treated : Slot → Op → Op → Op → Prop
  | parent {t : TypeRef} :
    Treated (.parent t) .delegateParent .delegateParent .delegateParent
  | flag {f : FlagSlot} :
    Treated (.flag f) (.resetFlag f.ident) (.writeFlag f.ident f.bit) (.readFlag f.ident f.bit)
  | primitive {f : FieldSlot} {method : Method} {p : Primitive}
    (encoding : f.encoding = .primitive method p) :
    Treated (.field f) (.resetField f.ident f.initial) (.writePrimitive f.ident method p)
      (.readPrimitive f.ident method p)
  | primitiveVector {f : FieldSlot} {method : Method} {p : Primitive}
    (encoding : f.encoding = .primitiveVector method p) :
    Treated (.field f) (.resetField f.ident f.initial) (.writePrimitiveVector f.ident method p)
      (.readPrimitiveVector f.ident method p)
  | object {f : FieldSlot} {t : TypeRef} (encoding : f.encoding = .object t) :
    Treated (.field f) (.resetField f.ident f.initial) (.writeObject f.ident)
      (.readObject f.ident t)
  | polymorphic {f : FieldSlot} {t : TypeRef} (encoding : f.encoding = .polymorphic t) :
    Treated (.field f) (.resetField f.ident f.initial) (.writeTypedObject f.ident)
      (.readTypedObject f.ident)
  | objectVector {f : FieldSlot} {t : TypeRef} {isOpen : Bool}
    (encoding : f.encoding = .objectVector t isOpen) :
    Treated (.field f) (.resetField f.ident f.initial) (.writeObjectVector f.ident isOpen)
      (.readObjectVector f.ident t isOpen)

/-- The programs treat the given slots one by one, in step; without any slot they are idle. -/
structure Program.InStep (p : Program) (slots : List Slot) : Prop where
  idle : slots = [] → p.reset = [.nop] ∧ p.serialize = [.nop] ∧ p.deserialize = [.nop]
  length : slots ≠ [] → p.reset.length = slots.length ∧ p.serialize.length = slots.length ∧
    p.deserialize.length = slots.length
  treated : ∀ (i : Nat) (slot : Slot), slots[i]? = some slot →
    ∃ reset write read, p.reset[i]? = some reset ∧ p.serialize[i]? = some write ∧
      p.deserialize[i]? = some read ∧ slot.Treated reset write read

namespace Slot

/-- The operation of a program on a slot, given those on flags and on fields. -/
def op (onFlag : FlagSlot → Op) (onField : FieldSlot → Op) : Slot → Op
  | parent _ => .delegateParent
  | flag f => onFlag f
  | field f => onField f

theorem treated_op (slot : Slot) :
    slot.Treated (slot.op (.resetFlag ·.ident) fun f => .resetField f.ident f.initial)
      (slot.op (fun f => .writeFlag f.ident f.bit) .writing)
      (slot.op (fun f => .readFlag f.ident f.bit) .reading) := by
  cases slot with
  | parent t => exact .parent
  | flag f => exact .flag
  | field f =>
    show (field f).Treated (.resetField f.ident f.initial) (.writing f) (.reading f)
    unfold Op.writing Op.reading
    cases encoding : f.encoding with
    | primitive method p => exact .primitive encoding
    | primitiveVector method p => exact .primitiveVector encoding
    | object t => exact .object encoding
    | polymorphic t => exact .polymorphic encoding
    | objectVector t isOpen => exact .objectVector encoding

end Slot

namespace Layout

variable (l : Layout) (onFlag : FlagSlot → Op) (onField : FieldSlot → Op)

theorem program_eq_map_slots :
    l.program onFlag onField =
      if l.slots = [] then [.nop] else l.slots.map (Slot.op onFlag onField) := by
  have ops : l.slots.map (Slot.op onFlag onField) =
      (if l.parent.isSome then [.delegateParent] else []) ++ l.flags.map onFlag ++
        l.fields.map onField := by
    unfold slots
    cases l.parent <;> simp [Slot.op, Function.comp_def]
  rw [program, ← ops]
  simp only [List.isEmpty_iff, List.map_eq_nil_iff]

theorem inStep_ofLayout (m : MessageDecl) : (Program.ofLayout m l).InStep l.slots := by
  have reset : (Program.ofLayout m l).reset = _ := program_eq_map_slots l _ _
  have write : (Program.ofLayout m l).serialize = _ := program_eq_map_slots l _ _
  have read : (Program.ofLayout m l).deserialize = _ := program_eq_map_slots l _ _
  refine ⟨fun none => ?_, fun some => ?_, fun i slot here => ?_⟩
  · simp [reset, write, read, none]
  · simp [reset, write, read, some]
  · have some : l.slots ≠ [] := by
      rintro none
      simp [none] at here
    rw [reset, write, read, if_neg some, if_neg some, if_neg some]
    exact ⟨_, _, _, by simp [here], by simp [here], by simp [here], slot.treated_op⟩

end Layout

/-! ## Layouts with their programs -/

theorem laidOutAs_of_plan {s : Schema} {m : MessageDecl} {l : Layout}
    (h : Layout.plan s m = .ok l) : m.LaidOutAs s l where
  parent := Layout.parent_of_plan h
  flags := by
    refine ⟨m.flagsInOrder, m.flagOrder_flagsInOrder, ?_⟩
    rw [Layout.flags_of_plan h, List.forall₂_map_right_iff, List.forall₂_same]
    intro f hf
    have declared : f ∈ m.flagDecls := m.flagOrder_flagsInOrder.perm.mem_iff.1 hf
    obtain ⟨hf, flag⟩ := List.mem_filter.1 declared
    obtain ⟨slot, laid⟩ : ∃ slot, Layout.flagSlot m.name f = .ok slot :=
      Layout.exists_flagSlot_iff.2 ((Layout.wellFormed_of_plan h).flags f hf flag)
    have made := Layout.isFlagSlot_of_flagSlot laid
    rwa [Layout.eq_flagSlot laid] at made
  fields := (Layout.fields_of_plan h).imp fun _ _ => Layout.isFieldSlot_of_fieldSlot
  imports := ⟨_, firstUses_firstOfEachName (Layout.namesTell_customTypes s m),
    Layout.imports_of_plan h⟩

/-- A message that can be laid out has a layout with its flags in the order of their positions, its
other fields in the author's order, each as the table prescribes, and one import for its parent and
for each custom type at its first use. The programs of the layout treat the parent, each flag and
each field at the same place. -/
theorem laidOutAs_and_inStep {s : Schema} {m : MessageDecl} {l : Layout}
    (h : Layout.plan s m = .ok l) :
    m.LaidOutAs s l ∧ (Program.ofLayout m l).InStep l.slots :=
  ⟨laidOutAs_of_plan h, l.inStep_ofLayout m⟩

section Convoy

/-- Two flags share a position, and two types come up twice. -/
def convoyMessage : MessageDecl where
  name := "ConvoyMessage"
  protocolId := 2
  parent := some "TravelMessage"
  fields :=
    [.polymorphic (.object "leader" "Wagon"), .flag "armed" 9, .object "start" "Place",
      .flag "late" 1, .vector (.object "stops" "Place"), .primitive "load" "uint" "writeVarUhInt",
      .flag "paid" 1, .vector (.polymorphic (.object "wagons" "Wagon"))]

def convoySchema : Schema where
  messages := [{ name := "TravelMessage", protocolId := 1 }, convoyMessage]
  types := [{ name := "Place", package := "map" }, { name := "Wagon" }]

theorem laidOutAs_and_inStep_convoy :
    ∃ l, Layout.plan convoySchema convoyMessage = .ok l ∧
      (convoyMessage.LaidOutAs convoySchema l ∧
        (Program.ofLayout convoyMessage l).InStep l.slots) ∧
      l.flags.map (·.name) = ["late", "paid", "armed"] ∧
      l.imports.map (·.type.name) = ["TravelMessage", "Wagon", "Place"] := by
  obtain ⟨l, planned⟩ :=
    exists_of_isOk (x := Layout.plan convoySchema convoyMessage) (by decide +kernel)
  have order : convoyMessage.flagsInOrder.map (·.name) = ["late", "paid", "armed"] := by
    simp [MessageDecl.flagsInOrder, MessageDecl.flagDecls, convoyMessage, FieldDecl.position,
      FieldDecl.flag, FieldDecl.vector, FieldDecl.polymorphic, FieldDecl.object,
      FieldDecl.primitive, List.mergeSort, List.MergeSort.Internal.splitInTwo]
  have imports : (Layout.plan convoySchema convoyMessage).toOption.map
      (fun l => l.imports.map (·.type.name)) =
      some ["TravelMessage", "Wagon", "Place"] := by
    decide +kernel
  rw [planned] at imports
  refine ⟨l, planned, laidOutAs_and_inStep planned, ?_, Option.some.inj imports⟩
  rw [Layout.flags_of_plan planned, List.map_map]
  exact order

end Convoy

end WireCodec
