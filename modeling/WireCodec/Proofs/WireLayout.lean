import WireCodec.Proofs.ProgramRoundTrip

/-!
# The bytes of a record

A record is written as the bytes that its declarations prescribe (`recordBytes`): those of the
parent, a byte for each flag, then those of each other field in the author's order. Flags come by
position, and those of one position in the author's order.
-/

namespace WireCodec

/-! ## Actions that append -/

section Appending

variable {ι : Type}

/-- When it succeeds, the action has appended `xs`. -/
def Appends (w : WriteM Unit) (xs : List UInt8) : Prop :=
  ∀ out out', w out = .ok () out' → out' = out.append xs

theorem Emits.appends {w : WriteM Unit} {xs : List UInt8} (h : Emits w xs) : Appends w xs := by
  intro out out' run
  cases (h out).symm.trans run
  rfl

theorem Halts.appends {w : WriteM Unit} {e : Fault} {xs : List UInt8} (h : Halts w e xs)
    (ys : List UInt8) : Appends w ys :=
  fun out _ run => nomatch (h out).symm.trans run

theorem Appends.bind {w : WriteM Unit} {k : Unit → WriteM Unit} {xs ys : List UInt8}
    (h : Appends w xs) (h' : Appends (k ()) ys) : Appends (w >>= k) (xs ++ ys) := by
  intro out out' run
  obtain ⟨⟨⟩, out₁, first, second⟩ := exists_of_bind_ok run
  rw [h' out₁ out' second, h out out₁ first, Buffer.append_append]

theorem appends_forM {w : ι → WriteM Unit} {spell : ι → List UInt8} {is : List ι}
    (h : ∀ i ∈ is, Appends (w i) (spell i)) : Appends (is.forM w) (is.flatMap spell) := by
  induction is with
  | nil => exact emits_pure.appends
  | cons i is ih =>
    obtain ⟨first, others⟩ := List.forall_mem_cons.1 h
    rw [List.flatMap_cons]
    exact first.bind (ih others)

/-- An item that is refused appends nothing, but then the action does not succeed. -/
theorem Item.appends_write (i : Item) : Appends i.write i.spell := by
  cases refused : i.refusal? with
  | none => exact (emits_write refused).appends
  | some e => exact (halts_write refused).appends _

theorem appends_writeSequence {α : Type} {write : α → WriteM Unit} {spell : α → List UInt8}
    {xs : Array α} (h : ∀ x ∈ xs, Appends (write x) (spell x)) :
    Appends (writeSequence write xs) (bigEndian 2 xs.size ++ xs.toList.flatMap spell) :=
  (Item.count xs.size).appends_write.bind (appends_forM fun x hx => h x (Array.mem_def.2 hx))

end Appending

/-! ## The bytes that declarations prescribe -/

namespace MessageDecl

/-- The fields that travel as flags. -/
def flagDecls (m : MessageDecl) : List FieldDecl := m.fields.filter (·.isFlag)

/-- The fields that are no flags. -/
def fieldDecls (m : MessageDecl) : List FieldDecl := m.fields.filter (!·.isFlag)

end MessageDecl

/-- The position of a flag. -/
def FieldDecl.position (f : FieldDecl) : UInt32 := f.flagPosition.getD 0

/-- The flags by position, those of one position in the author's order. -/
def MessageDecl.flagsInOrder (m : MessageDecl) : List FieldDecl :=
  m.flagDecls.mergeSort (·.position ≤ ·.position)

section Bytes

variable {γ : Type} (typeId : γ → UInt16) (payload : γ → List UInt8)

namespace FieldDecl

/-- The byte of a flag. -/
def flagByte (f : FieldDecl) : FieldValue γ → UInt8
  | .single (.scalar (.boolean true)) => .ofNat (1 <<< (f.position.toNat % 8))
  | _ => 0

/-- The bytes of one value of a field: a number, a string or a boolean by the method of the field,
an object as its payload, behind its type id if the type of the field is open. -/
def elementBytes (f : FieldDecl) : Element γ → List UInt8
  | .scalar v => (f.writeMethod.bind Method.ofName?).elim [] fun method => (method.item v).spell
  | .object v => (if f.isOpen then bigEndian 2 (typeId v).toNat else []) ++ payload v

/-- The bytes of a field: its value, or the number of its values and then each of them. -/
def bytes (f : FieldDecl) : FieldValue γ → List UInt8
  | .single e => f.elementBytes typeId payload e
  | .sequence es =>
    bigEndian 2 es.size ++ es.toList.flatMap (f.elementBytes typeId payload)

end FieldDecl

/-- The bytes of a record of a message, given the message and its ancestors, the nearest first. -/
def recordBytes : List MessageDecl → Record γ → List UInt8
  | m :: ancestors, own :: base =>
    recordBytes ancestors base ++
      (m.flagsInOrder.map fun f => f.flagByte (own.value (identifier f.name))) ++
      m.fieldDecls.flatMap fun f => f.bytes typeId payload (own.value (identifier f.name))
  | _, _ => []

end Bytes

/-! ## Values of the declared types -/

section Types

variable {γ : Type}

/-- The element is of the given type. -/
def Element.HasType : FieldType → Element γ → Prop
  | .primitive p, scalar v => v.primitive = p
  | .custom _, object _ => True
  | .polymorphic _, object _ => True
  | _, _ => False

/-- The value is of the given type. -/
def FieldValue.HasType : FieldType → FieldValue γ → Prop
  | .sequence τ, sequence es => ∀ e ∈ es, e.HasType τ
  | .sequence _, single _ => False
  | τ, single e => e.HasType τ
  | _, sequence _ => False

theorem FieldValue.exists_single {τ : FieldType} {v : FieldValue γ} (h : v.HasType τ)
    (one : ∀ τ', τ ≠ .sequence τ') : ∃ e, v = single e ∧ e.HasType τ := by
  cases τ with
  | sequence τ => exact absurd rfl (one τ)
  | _ =>
    cases v with
    | single e => exact ⟨e, rfl, h⟩
    | sequence es => exact h.elim

theorem Element.exists_object {t : TypeRef} {isOpen : Bool} {e : Element γ}
    (h : e.HasType (if isOpen then .polymorphic t else .custom t)) : ∃ v, e = object v := by
  cases e with
  | object v => exact ⟨v, rfl⟩
  | scalar v => cases isOpen <;> exact h.elim

/-- The level has the fields of the layout, each with a value of its type. -/
structure Level.HasType (l : Layout) (own : Level γ) : Prop where
  flag : ∀ f ∈ l.flags, ∃ b, own.get? f.ident = some (.single (.scalar (.boolean b)))
  field : ∀ f ∈ l.fields, ∃ v, own.get? f.ident = some v ∧ v.HasType f.type

end Types

/-! ## The order of flags -/

/-- A list of all flags of a message, by position, those of one position in the author's order. -/
structure MessageDecl.FlagOrder (m : MessageDecl) (flags : List FieldDecl) : Prop where
  perm : flags.Perm m.flagDecls
  sorted : flags.Pairwise fun f g => f.position ≤ g.position
  stable : ∀ p, flags.filter (·.position = p) = m.flagDecls.filter (·.position = p)

theorem MessageDecl.flagOrder_flagsInOrder (m : MessageDecl) : m.FlagOrder m.flagsInOrder := by
  have trans : ∀ f g h : FieldDecl, decide (f.position ≤ g.position) →
      decide (g.position ≤ h.position) → decide (f.position ≤ h.position) := by
    intro f g h
    simpa using UInt32.le_trans
  have total : ∀ f g : FieldDecl,
      decide (f.position ≤ g.position) || decide (g.position ≤ f.position) := by
    intro f g
    simpa using UInt32.le_total f.position g.position
  have perm : m.flagsInOrder.Perm m.flagDecls := List.mergeSort_perm _ _
  refine ⟨perm, ?_, fun p => ?_⟩
  · simpa [flagsInOrder] using List.pairwise_mergeSort trans total m.flagDecls
  · -- flags of one position are a sorted sublist, which a stable sort keeps
    have same : (m.flagDecls.filter (·.position = p)).Pairwise
        fun f g => decide (f.position ≤ g.position) := by
      refine List.pairwise_of_forall_mem_list fun f hf g hg => ?_
      have hf := (List.mem_filter.1 hf).2
      have hg := (List.mem_filter.1 hg).2
      simp_all
    have kept := (List.sublist_mergeSort trans total same List.filter_sublist).filter
      (·.position = p)
    simp only [List.filter_filter, Bool.and_self] at kept
    exact (kept.eq_of_length (perm.filter _).length_eq.symm).symm

/-! ## One field -/

namespace Op

variable {γ : Type} {custom : CustomTypes γ} {payload : γ → List UInt8} {delegate : WriteM Unit}
  {own : Level γ} {f : FieldDecl}

/-- A flag has one bit, which its position gives. -/
theorem shiftLeft_bit (position : UInt32) :
    (1 : UInt8) <<< (position % 8).toUInt8 = .ofNat (1 <<< (position.toNat % 8)) := by
  have bits : ∀ n : Fin 8, (1 : UInt8) <<< UInt8.ofNat n = .ofNat (1 <<< n.val) := by decide
  have bit : (position % 8).toUInt8 = .ofNat (position.toNat % 8) := by
    apply UInt8.toNat_inj.1
    simp
  rw [bit]
  exact bits ⟨position.toNat % 8, Nat.mod_lt _ (by decide)⟩

theorem appends_flag {b : Bool}
    (value : own.get? (identifier f.name) = some (.single (.scalar (.boolean b)))) :
    Appends (runWrite custom delegate own
        (.writeFlag (identifier f.name) (f.position % 8).toUInt8))
      [f.flagByte (own.value (identifier f.name))] := by
  have written := (Item.flag (f.position % 8).toUInt8 b).appends_write
  rw [runWrite, writeSingle_eq value, Level.value, value]
  rw [Item.spell, shiftLeft_bit] at written
  cases b <;> exact written

/-- The value of a field is written by what writes its elements. -/
theorem appends_single {write : Element γ → WriteM Unit} {τ : FieldType} {v : FieldValue γ}
    (value : own.get? (identifier f.name) = some v) (typed : v.HasType τ)
    (one : ∀ τ', τ ≠ .sequence τ')
    (h : ∀ e : Element γ, e.HasType τ →
      Appends (write e) (f.elementBytes custom.typeId payload e)) :
    Appends (writeSingle write own (identifier f.name))
      (f.bytes custom.typeId payload (own.value (identifier f.name))) := by
  obtain ⟨e, rfl, suited⟩ := FieldValue.exists_single typed one
  rw [writeSingle_eq value, Level.value, value]
  exact h e suited

theorem appends_many {write : Element γ → WriteM Unit} {τ : FieldType} {v : FieldValue γ}
    (value : own.get? (identifier f.name) = some v) (typed : v.HasType (.sequence τ))
    (h : ∀ e : Element γ, e.HasType τ →
      Appends (write e) (f.elementBytes custom.typeId payload e)) :
    Appends (writeMany write own (identifier f.name))
      (f.bytes custom.typeId payload (own.value (identifier f.name))) := by
  match v, typed with
  | .sequence es, typed =>
    rw [writeMany_eq value, Level.value, value]
    exact appends_writeSequence fun e he => h e (typed e he)

theorem appends_writeScalar {method : Method} {p : Primitive}
    (chosen : f.writeMethod.bind Method.ofName? = some method) (e : Element γ)
    (typed : e.HasType (.primitive p)) :
    Appends (writeScalar method e) (f.elementBytes custom.typeId payload e) := by
  match e, typed with
  | .scalar v, _ =>
    rw [FieldDecl.elementBytes, chosen]
    exact (method.item v).appends_write

/-- An object is written as its payload, behind its type id if the field is open. -/
theorem appends_writeCustom (h : ∀ v, Appends (custom.write v) (payload v)) {t : TypeRef}
    (e : Element γ) (typed : e.HasType (if f.isOpen then .polymorphic t else .custom t)) :
    Appends (writeCustom custom f.isOpen e) (f.elementBytes custom.typeId payload e) := by
  obtain ⟨v, rfl⟩ := Element.exists_object typed
  unfold writeCustom FieldDecl.elementBytes
  cases f.isOpen with
  | true => exact (Item.unsignedShort (custom.typeId v)).appends_write.bind (h v)
  | false => exact h v

/-- A field is written as its declaration prescribes. -/
theorem appends_field {s : Schema} {message : String} {slot : FieldSlot} {v : FieldValue γ}
    (laid : Layout.fieldSlot s message f = .ok slot) (value : own.get? slot.ident = some v)
    (typed : v.HasType slot.type) (h : ∀ v, Appends (custom.write v) (payload v)) :
    Appends (runWrite custom delegate own (.writing slot))
      (f.bytes custom.typeId payload (own.value (identifier f.name))) := by
  obtain ⟨p, method, -, -, chosen, rfl⟩ | ⟨t, -, -, rfl⟩ := Layout.fieldSlot_ok laid
  · have element : ∀ e : Element γ, e.HasType (.primitive p) →
        Appends (writeScalar method e) (f.elementBytes custom.typeId payload e) :=
      appends_writeScalar (Layout.writeMethod_ok chosen).1
    unfold Layout.primitiveSlot at value typed ⊢
    split_ifs at value typed ⊢
    · exact appends_many value typed element
    · exact appends_single value typed nofun element
  · have element := appends_writeCustom (f := f) h (t := ⟨t.name, t.package⟩)
    unfold Layout.customSlot at value typed ⊢
    cases vector : f.isVector with
    | true =>
      simp only [vector, if_true] at value typed ⊢
      exact appends_many value typed element
    | false =>
      cases isOpen : f.isOpen <;> rw [isOpen] at element <;>
        simp only [vector, isOpen, Bool.false_eq_true, if_false, if_true] at value typed ⊢
      · exact appends_single value typed nofun element
      · exact appends_single value typed nofun element

end Op

/-! ## Whole records -/

/-- The slot of a flag that has a position. -/
def FieldDecl.flagSlot (f : FieldDecl) : FlagSlot where
  name := f.name
  ident := identifier f.name
  position := f.position
  bit := (f.position % 8).toUInt8

namespace Layout

theorem eq_flagSlot {message : String} {f : FieldDecl} {slot : FlagSlot}
    (h : flagSlot message f = .ok slot) : slot = f.flagSlot := by
  obtain ⟨position, found, rfl⟩ := flagSlot_ok h
  rw [FieldDecl.flagSlot, FieldDecl.position, found, Option.getD_some]

/-- The flags of a layout stand in wire order. -/
theorem flags_of_plan {s : Schema} {m : MessageDecl} {l : Layout} (h : plan s m = .ok l) :
    l.flags = m.flagsInOrder.map (·.flagSlot) := by
  obtain ⟨-, ancestors, flags, fields, taken, taken', -, laid, -, -, rfl⟩ := plan_ok h
  have slots : m.flagDecls.map (·.flagSlot) = flags := by
    have := map_eq_map_of_forall₂ (g := id) (claimEach_ok laid).1 fun f slot made =>
      (eq_flagSlot made).symm
    rwa [List.map_id] at this
  show flags.mergeSort _ = _
  rw [← slots, MessageDecl.flagsInOrder]
  exact (List.map_mergeSort (f := FieldDecl.flagSlot) fun f _ g _ => rfl).symm

/-- The other fields of a layout stand in the author's order. -/
theorem fields_of_plan {s : Schema} {m : MessageDecl} {l : Layout} (h : plan s m = .ok l) :
    List.Forall₂ (fun f slot => fieldSlot s m.name f = .ok slot) m.fieldDecls l.fields := by
  obtain ⟨-, ancestors, flags, fields, taken, taken', -, -, laid, -, rfl⟩ := plan_ok h
  exact (claimEach_ok laid).1

end Layout

namespace Record

variable {γ : Type} {custom : CustomTypes γ} {payload : γ → List UInt8}

/-- Loops over lists that belong together. -/
theorem appends_forM_of_forall₂ {ι κ : Type} {R : ι → κ → Prop} {is : List ι} {ks : List κ}
    {w : κ → WriteM Unit} {spell : ι → List UInt8} (h : List.Forall₂ R is ks)
    (each : ∀ i, ∀ k ∈ ks, R i k → Appends (w k) (spell i)) :
    Appends (ks.forM w) (is.flatMap spell) := by
  induction h with
  | nil => exact emits_pure.appends
  | cons hik _ ih =>
    rw [List.flatMap_cons]
    exact (each _ _ List.mem_cons_self hik).bind
      (ih fun i k hk => each i k (List.mem_cons_of_mem _ hk))

/-- A record is written as its declarations prescribe, parents first. -/
theorem appends_write {s : Schema} (h : ∀ v, Appends (custom.write v) (payload v))
    {ms : List MessageDecl} {ls : List Layout}
    (planned : List.Forall₂ (fun m l => Layout.plan s m = .ok l) ms ls)
    (lineage : Layout.Lineage ls) {r : Record γ} (typed : List.Forall₂ Level.HasType ls r) :
    Appends (write custom ls r) (recordBytes custom.typeId payload ms r) := by
  induction typed generalizing ms with
  | nil =>
    cases planned
    exact emits_pure.appends
  | @cons l own ls base typed rest ih =>
    obtain - | ⟨plan, planned⟩ := planned
    have last := lineage.eq_nil
    obtain ⟨-, -, lineage⟩ := lineage
    rename_i m ms
    rw [write, Layout.writeProgram, Layout.forM_program (Op.runWrite_nop _ _ _), recordBytes,
      List.append_assoc]
    refine Appends.bind ?_ (Appends.bind ?_ ?_)
    · split_ifs with inherits
      · have delegated := (ih planned lineage).bind emits_pure.appends
        rwa [List.append_nil] at delegated
      · obtain rfl := last inherits
        cases rest
        cases planned
        exact emits_pure.appends
    · rw [Layout.flags_of_plan plan, List.forM_eq_forM, List.forM_map, List.map_eq_flatMap]
      refine appends_forM fun f hf => ?_
      have slot : f.flagSlot ∈ l.flags := by
        rw [Layout.flags_of_plan plan]
        exact List.mem_map_of_mem hf
      obtain ⟨b, value⟩ := typed.flag f.flagSlot slot
      exact Op.appends_flag value
    · refine appends_forM_of_forall₂ (Layout.fields_of_plan plan) fun f slot hslot laid => ?_
      obtain ⟨v, value, typed⟩ := typed.field slot hslot
      exact Op.appends_field laid value typed h

end Record

/-- What a message of a schema that can be generated is written as, whenever that succeeds, is
determined by the declarations: first the bytes of the parent's part, then a byte for each flag, by
position and those of one position in the author's order, then the other fields in the author's
order, each as its elements, behind their number if it is a vector and each behind its type id if
the type is open. -/
theorem eq_recordBytes_of_write {s : Schema} {settings : Settings} {o : Output}
    (generated : s.generate settings = .ok o) {m : MessageDecl} (hm : m ∈ s.messages) :
    ∃ ancestors layouts, s.ancestors m = .ok ancestors ∧ s.lineage m = .ok layouts ∧
      (∀ a ∈ m :: ancestors, a.FlagOrder a.flagsInOrder) ∧
      ∀ (γ : Type) (custom : CustomTypes γ) (payload : γ → List UInt8),
        (∀ v out out', custom.write v out = .ok () out' → out' = out.append (payload v)) →
        ∀ r : Record γ, List.Forall₂ Level.HasType layouts r →
        ∀ out out', Record.write custom layouts r out = .ok () out' →
          out' = out.append (recordBytes custom.typeId payload (m :: ancestors) r) := by
  obtain ⟨layouts, found, lineage⟩ := Schema.lineage_of_generate generated hm
  obtain ⟨ancestors, hancestors, planned⟩ := bind_eq_ok_iff.1 found
  exact ⟨ancestors, layouts, hancestors, found, fun a _ => a.flagOrder_flagsInOrder,
    fun γ custom payload h r typed =>
      Record.appends_write h (mapM_eq_ok_iff.1 planned) lineage typed⟩

section Speech

open Game

theorem hasType_speech (volume : Binary64) :
    List.Forall₂ Level.HasType speechLayouts (speech volume) := by
  refine .cons ⟨by simp, ?_⟩ (.cons ⟨?_, ?_⟩ .nil)
  · simp only [List.forall_mem_cons]
    refine ⟨⟨_, rfl, ?_⟩, ⟨_, rfl, trivial⟩, by simp⟩
    simp [FieldValue.HasType, Element.HasType, Scalar.primitive]
  · simp only [List.forall_mem_cons]
    exact ⟨⟨true, rfl⟩, by simp⟩
  · simp only [List.forall_mem_cons]
    exact ⟨⟨_, rfl, rfl⟩, by simp⟩

/-- The parent's flag and volume come first, then the words and the monster behind its type id. -/
theorem eq_recordBytes_of_write_speech :
    ∃ layouts out, speechSchema.lineage speechMessage = .ok layouts ∧
      Record.write valueTypes layouts (speech ⟨0x3FF8000000000000⟩) {} = .ok () out ∧
      out.toList = [2, 1] ++ [0, 2] ++ [0, 3, 110, 111, 119] ++ [0, 4, 104, 101, 114, 101] ++
        [0, 22] ++ [0, 0, 0, 0, 0, 0, 0, 0, 7] := by
  obtain ⟨o, generated⟩ := exists_of_isOk (x := speechSchema.generate {}) (by decide +kernel)
  obtain ⟨ancestors, layouts, found, planned, -, written⟩ :=
    eq_recordBytes_of_write generated (m := speechMessage) (by decide)
  have line : (speechSchema.ancestors speechMessage).toOption = some [soundMessage] := by
    decide +kernel
  have lineage : (speechSchema.lineage speechMessage).toOption = some speechLayouts := by
    decide +kernel
  rw [found] at line
  rw [planned] at lineage
  cases line
  cases lineage
  have payload : ∀ (v : Entity) (out out' : Buffer), valueTypes.write v out = .ok () out' →
      out' = out.append (spellAll v.items) := by
    intro v
    show Appends v.write _
    rw [Entity.write_eq]
    exact appends_forM fun i _ => i.appends_write
  obtain ⟨layouts, planned', lineage⟩ :=
    Schema.lineage_of_generate generated (m := speechMessage) (by decide)
  cases planned.symm.trans planned'
  obtain ⟨xs, emits, -⟩ := Record.conveys_record lineage (suits_speech ⟨0x3FF8000000000000⟩)
  refine ⟨_, _, planned, emits {}, ?_⟩
  rw [written Entity valueTypes _ payload _ (hasType_speech _) {} _ (emits {}),
    Buffer.toList_append, Buffer.toList_empty, List.nil_append]
  decide +kernel

end Speech

end WireCodec
