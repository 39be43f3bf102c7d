import WireCodec.Proofs.MessageRoundTrip
import WireCodec.Proofs.Planning

/-!
# Round trips of programs

What the program of a message writes of a record, its reading program turns back into the record,
except that numbers have been cast to what their methods take and back (`Record.carried`). This
holds for every message of every schema that can be generated, whatever its ancestors, flags and
encodings are. Of the custom types it assumes only that their own values are restored.
-/

namespace WireCodec

variable {γ : Type}

/-! ## Values after the way over the wire -/

/-- A value cast to what the method takes and back; what is not a number is not cast. -/
def Method.carried (m : Method) (v : Scalar) : Scalar :=
  if v.primitive.kind = .numeric then (m.item v).cast v.primitive else v

/-- Changes the elements of primitive type. -/
def Element.mapScalar (f : Scalar → Scalar) : Element γ → Element γ
  | scalar v => scalar (f v)
  | object v => object v

/-- Changes the elements of primitive type. -/
def FieldValue.mapScalar (f : Scalar → Scalar) : FieldValue γ → FieldValue γ
  | single e => single (e.mapScalar f)
  | sequence es => sequence (es.map (Element.mapScalar f))

/-- The value of a field after the way over the wire. -/
def Encoding.carried : Encoding → FieldValue γ → FieldValue γ
  | primitive method _, v => v.mapScalar method.carried
  | primitiveVector method _, v => v.mapScalar method.carried
  | _, v => v

/-- The values of a level after the way over the wire; flags stay as they are. -/
def Layout.carried (l : Layout) (own : Level γ) : Level γ :=
  ⟨own.fields.map fun (ident, v) =>
    (ident, match l.fields.find? (·.ident = ident) with
      | some f => f.encoding.carried v
      | none => v)⟩

/-- A record after the way over the wire. -/
def Record.carried : List Layout → Record γ → Record γ := List.zipWith Layout.carried

theorem Method.eq_utf_of_accepts {m : Method} (h : m.accepts .string) : m = utf := by
  cases m <;> revert h <;> decide

theorem Method.eq_boolean_of_accepts {m : Method} (h : m.accepts .boolean) : m = boolean := by
  cases m <;> revert h <;> decide

/-- What is not a number is read as it was written, so that only numbers change. -/
theorem Method.cast_item {m : Method} {v : Scalar} (h : m.accepts v.primitive) :
    (m.item v).cast v.primitive = m.carried v := by
  cases v with
  | text s => rw [eq_utf_of_accepts h]; rfl
  | boolean b => rw [eq_boolean_of_accepts h]; rfl
  | _ => rfl

/-! ## Values that the wire can carry -/

/-- A string is not longer than the wire admits. -/
def Scalar.Fits : Scalar → Prop
  | text s => s.utf8ByteSize ≤ maxSize
  | _ => True

theorem Method.refusal?_item {m : Method} {v : Scalar} (h : v.Fits) :
    (m.item v).refusal? = none := by
  cases m with
  | utf =>
    cases v with
    | text s => exact if_neg (Nat.not_lt.2 h)
    | _ => rfl
  | _ => rfl

variable (custom : CustomTypes γ) (types : TypeTable γ)

/-- The element is of the given type. A string fits the wire. What is written of an object fills a
default value of its type so that it is the object: where the type is closed, the default value of
that type, and where it is open, the one that the table has for the id of the object. -/
def Element.Suits : FieldType → Element γ → Prop
  | .primitive p, scalar v => v.primitive = p ∧ v.Fits
  | .custom t, object v => Conveys (custom.write v) (custom.fill types) (custom.fresh t) v
  | .polymorphic _, object v => ∃ start, types.find? (custom.typeId v) = some start ∧
      Conveys (custom.write v) (custom.fill types) start v
  | _, _ => False

/-- The value is of the given type and all of its elements suit; a sequence is not longer than the
wire admits. -/
def FieldValue.Suits : FieldType → FieldValue γ → Prop
  | .sequence τ, sequence es => es.size ≤ maxSize ∧ ∀ e ∈ es, e.Suits custom types τ
  | .sequence _, single _ => False
  | τ, single e => e.Suits custom types τ
  | _, sequence _ => False

/-- The level has the fields of the layout, each with a value that suits its type. -/
structure Level.Suits (l : Layout) (own : Level γ) : Prop where
  idents : own.fields.map (·.1) = l.flags.map (·.ident) ++ l.fields.map (·.ident)
  flag : ∀ f ∈ l.flags, ∃ b, own.get? f.ident = some (.single (.scalar (.boolean b)))
  field : ∀ f ∈ l.fields, ∃ v, own.get? f.ident = some v ∧ v.Suits custom types f.type

/-! ## Levels with a hole -/

/-- A level without the value of one field, whose identifier no other field has. -/
structure Hole (γ : Type) where
  before : List (String × FieldValue γ)
  ident : String
  after : List (String × FieldValue γ)
  alone : ∀ x ∈ before ++ after, x.1 ≠ ident

namespace Hole

variable (h : Hole γ)

/-- The level with a value in the hole. -/
def plug (v : FieldValue γ) : Level γ := ⟨h.before ++ (h.ident, v) :: h.after⟩

@[simp] theorem get?_plug (v : FieldValue γ) : (h.plug v).get? h.ident = some v := by
  have apart : h.before.lookup h.ident = none := by
    rw [List.lookup_eq_none_iff]
    intro x hx
    simpa using (h.alone x (List.mem_append_left _ hx)).symm
  simp [plug, Level.get?, List.lookup_append, apart]

@[simp] theorem modify_plug (v : FieldValue γ) (f : FieldValue γ → FieldValue γ) :
    (h.plug v).modify h.ident f = h.plug (f v) := by
  have others : ∀ xs : List (String × FieldValue γ), (∀ x ∈ xs, x.1 ≠ h.ident) →
      xs.map (fun x => (x.1, if x.1 = h.ident then f x.2 else x.2)) = xs := by
    intro xs apart
    refine (List.map_congr_left fun x hx => ?_).trans xs.map_id
    rw [if_neg (apart x hx)]
    rfl
  have before := others h.before fun x hx => h.alone x (List.mem_append_left _ hx)
  have after := others h.after fun x hx => h.alone x (List.mem_append_right _ hx)
  simp only [plug, Level.modify, List.map_append, List.map_cons, if_pos, before, after]

@[simp] theorem setSingle_plug (v : FieldValue γ) (e : Element γ) :
    (h.plug v).setSingle h.ident e = h.plug (.single e) :=
  h.modify_plug v fun _ => .single e

end Hole

/-! ## One field -/

namespace Op

variable {custom types} {own : Level γ} {field : String} {xs : List UInt8}

theorem writeSingle_eq {write : Element γ → WriteM Unit} {e : Element γ}
    (h : own.get? field = some (.single e)) : writeSingle write own field = write e := by
  rw [writeSingle, h]

theorem writeMany_eq {write : Element γ → WriteM Unit} {es : Array (Element γ)}
    (h : own.get? field = some (.sequence es)) :
    writeMany write own field = writeSequence write es := by
  rw [writeMany, h]

theorem emits_writeCustom_open {v : γ} (h : Emits (custom.write v) xs) :
    Emits (writeCustom custom true (.object v)) (bigEndian 2 (custom.typeId v).toNat ++ xs) :=
  (emits_put _).bind h

theorem fills_fillObject {h : Hole γ} {v v' : γ} (filled : Fills (custom.fill types) xs v v') :
    Fills (fillObject custom types h.ident) xs (h.plug (.single (.object v)))
      (h.plug (.single (.object v'))) := by
  intro p rest
  simp only [fillObject, Hole.get?_plug, FillM.within, filled p rest, Hole.setSingle_plug]

/-- The elements of a sequence are written in a loop and read by another. -/
theorem conveys_loop {α : Type} {write : Element γ → WriteM Unit} {read : ReadM α}
    {wrap : α → Element γ} {back : Element γ → Element γ} {h : Hole γ} {es : List (Element γ)}
    (each : ∀ e ∈ es, ∃ xs a, Emits (write e) xs ∧ Reads read xs a ∧ wrap a = back e)
    (before : List (Element γ)) :
    Conveys (es.forM write)
      (.times (.assign (fun own a => own.modify h.ident (·.push (wrap a))) read) es.length)
      (h.plug (.sequence before.toArray))
      (h.plug (.sequence (before ++ es.map back).toArray)) := by
  induction es generalizing before with
  | nil =>
    rw [List.map_nil, List.append_nil]
    exact conveys_pure _
  | cons e es ih =>
    obtain ⟨⟨xs, a, emits, reads, same⟩, rest⟩ := List.forall_mem_cons.1 each
    have one := reads.fills_assign (fun own a => own.modify h.ident (·.push (wrap a)))
      (h.plug (.sequence before.toArray))
    rw [Hole.modify_plug, FieldValue.push, same, List.push_toArray] at one
    rw [List.map_cons, List.append_cons]
    exact Conveys.bind ⟨xs, emits, one⟩ (ih rest (before ++ [back e]))

theorem conveys_many {α : Type} {write : Element γ → WriteM Unit} {read : ReadM α}
    {wrap : α → Element γ} {back : Element γ → Element γ} {h : Hole γ} {es : Array (Element γ)}
    (small : es.size ≤ maxSize) (value : own.get? h.ident = some (.sequence es))
    (each : ∀ e ∈ es, ∃ xs a, Emits (write e) xs ∧ Reads read xs a ∧ wrap a = back e) :
    Conveys (writeMany write own h.ident)
      (.extend (fun own a => own.modify h.ident (·.push (wrap a))) read)
      (h.plug (.sequence #[])) (h.plug (.sequence (es.map back))) := by
  obtain ⟨xs, emits, fills⟩ := conveys_loop (h := h) (fun e he => each e (Array.mem_def.2 he)) []
  rw [List.nil_append, ← Array.toList_map, Array.toArray_toList, Array.length_toList] at fills
  rw [writeMany_eq value]
  exact ⟨bigEndian 2 es.size ++ xs, (emits_writeCount small).bind emits, .extend small fills⟩

theorem conveys_flag {h : Hole γ} {delegate : WriteM Unit} {bit : UInt8} {b : Bool}
    (small : bit ≤ FlagByte.maxBit)
    (value : own.get? h.ident = some (.single (.scalar (.boolean b)))) (v : FieldValue γ) :
    Conveys (runWrite custom delegate own (.writeFlag h.ident bit))
      (readOwn custom types (.readFlag h.ident bit)) (h.plug v)
      (h.plug (.single (.scalar (.boolean b)))) := by
  have fills := (reads_readFlag small b).fills_assign
    (fun own b => own.setSingle h.ident (.scalar (.boolean b))) (h.plug v)
  rw [Hole.setSingle_plug] at fills
  refine ⟨_, ?_, fills⟩
  rw [runWrite, writeSingle_eq value]
  exact emits_writeFlag small b

end Op

namespace Method

variable {m : Method} {v : Scalar}

theorem emits_write (h : v.Fits) : Emits (m.write v) (m.item v).spell :=
  Item.emits_write (refusal?_item h)

theorem reads_read {p : Primitive} (h : v.Fits) (type : v.primitive = p) (accepted : m.accepts p) :
    Reads (m.read p) (m.item v).spell (m.carried v) := by
  subst type
  have := (Item.reads_shape (refusal?_item (m := m) h)).map (·.cast v.primitive)
  rwa [shape_item, cast_item accepted] at this

end Method

namespace Op

variable {custom types} {own : Level γ} {h : Hole γ} {delegate : WriteM Unit} {v : FieldValue γ}

theorem conveys_primitive {m : Method} {p : Primitive} (accepted : m.accepts p)
    (value : own.get? h.ident = some v) (suits : v.Suits custom types (.primitive p))
    (start : FieldValue γ) :
    Conveys (runWrite custom delegate own (.writePrimitive h.ident m p))
      (readOwn custom types (.readPrimitive h.ident m p)) (h.plug start)
      (h.plug (v.mapScalar m.carried)) := by
  match v, suits with
  | .single (.scalar x), ⟨typed, fits⟩ =>
    have fills := (Method.reads_read fits typed accepted).fills_assign
      (fun own x => own.setSingle h.ident (.scalar x)) (h.plug start)
    rw [Hole.setSingle_plug] at fills
    refine ⟨_, ?_, fills⟩
    rw [runWrite, writeSingle_eq value]
    exact Method.emits_write fits

theorem conveys_primitiveVector {m : Method} {p : Primitive} (accepted : m.accepts p)
    (value : own.get? h.ident = some v) (suits : v.Suits custom types (.sequence (.primitive p))) :
    Conveys (runWrite custom delegate own (.writePrimitiveVector h.ident m p))
      (readOwn custom types (.readPrimitiveVector h.ident m p)) (h.plug (.sequence #[]))
      (h.plug (v.mapScalar m.carried)) := by
  match v, suits with
  | .sequence es, ⟨small, each⟩ =>
    refine conveys_many small value fun e he => ?_
    match e, each e he with
    | .scalar x, ⟨typed, fits⟩ =>
      exact ⟨_, _, Method.emits_write fits, Method.reads_read fits typed accepted, rfl⟩

theorem conveys_object {t : TypeRef} (value : own.get? h.ident = some v)
    (suits : v.Suits custom types (.custom t)) (start : FieldValue γ) :
    Conveys (runWrite custom delegate own (.writeObject h.ident))
      (readOwn custom types (.readObject h.ident t)) (h.plug start) (h.plug v) := by
  match v, suits with
  | .single (.object x), ⟨xs, emits, fills⟩ =>
    refine ⟨xs, ?_, (fills_change _ _).bind ?_⟩
    · rw [runWrite, writeSingle_eq value]
      exact emits
    · rw [Hole.setSingle_plug]
      exact fills_fillObject fills

theorem conveys_typedObject {t : TypeRef} (value : own.get? h.ident = some v)
    (suits : v.Suits custom types (.polymorphic t)) (start : FieldValue γ) :
    Conveys (runWrite custom delegate own (.writeTypedObject h.ident))
      (readOwn custom types (.readTypedObject h.ident)) (h.plug start) (h.plug v) := by
  match v, suits with
  | .single (.object x), ⟨found, registered, xs, emits, fills⟩ =>
    refine ⟨bigEndian 2 (custom.typeId x).toNat ++ xs, ?_, .bind
      ((reads_readInstance registered).fills_assign _ _) ?_⟩
    · rw [runWrite, writeSingle_eq value]
      exact emits_writeCustom_open emits
    · rw [Hole.setSingle_plug]
      exact fills_fillObject fills

theorem conveys_closedVector {t : TypeRef} (value : own.get? h.ident = some v)
    (suits : v.Suits custom types (.sequence (.custom t))) :
    Conveys (runWrite custom delegate own (.writeObjectVector h.ident false))
      (readOwn custom types (.readObjectVector h.ident t false)) (h.plug (.sequence #[]))
      (h.plug v) := by
  match v, suits with
  | .sequence es, ⟨small, each⟩ =>
    rw [← Array.map_id es]
    refine conveys_many small value fun e he => ?_
    match e, each e he with
    | .object x, ⟨xs, emits, fills⟩ => exact ⟨xs, x, emits, fills.fresh, rfl⟩

theorem conveys_openVector {t : TypeRef} (value : own.get? h.ident = some v)
    (suits : v.Suits custom types (.sequence (.polymorphic t))) :
    Conveys (runWrite custom delegate own (.writeObjectVector h.ident true))
      (readOwn custom types (.readObjectVector h.ident t true)) (h.plug (.sequence #[]))
      (h.plug v) := by
  match v, suits with
  | .sequence es, ⟨small, each⟩ =>
    rw [← Array.map_id es]
    refine conveys_many small value fun e he => ?_
    match e, each e he with
    | .object x, ⟨start, registered, xs, emits, fills⟩ =>
      exact ⟨_, x, emits_writeCustom_open emits, reads_readValue registered fills, rfl⟩

/-- The operations of a field fit together. -/
theorem conveys_field {f : FieldSlot} (coherent : f.Coherent) (hole : h.ident = f.ident)
    (value : own.get? f.ident = some v) (suits : v.Suits custom types f.type) :
    Conveys (runWrite custom delegate own (.writing f)) (readOwn custom types (.reading f))
      (h.plug (f.initial.value custom)) (h.plug (f.encoding.carried v)) := by
  rw [← hole] at value
  cases coherent with
  | primitive m p accepted type initial encoding =>
    rw [writing, reading, encoding, initial, ← hole]
    exact conveys_primitive accepted value (type ▸ suits) _
  | primitiveVector m p accepted type initial encoding =>
    rw [writing, reading, encoding, initial, ← hole]
    exact conveys_primitiveVector accepted value (type ▸ suits)
  | object t type initial encoding =>
    rw [writing, reading, encoding, initial, ← hole]
    exact conveys_object value (type ▸ suits) _
  | polymorphic t type initial encoding =>
    rw [writing, reading, encoding, initial, ← hole]
    exact conveys_typedObject value (type ▸ suits) _
  | closedVector t type initial encoding =>
    rw [writing, reading, encoding, initial, ← hole]
    exact conveys_closedVector value (type ▸ suits)
  | openVector t type initial encoding =>
    rw [writing, reading, encoding, initial, ← hole]
    exact conveys_openVector value (type ▸ suits)

end Op

/-! ## One level -/

/-- Steps that each convey the value of one field convey the values of all. The level may stand in
a larger value. -/
theorem conveys_steps {ι σ : Type} (embed : Level γ → σ) {key : ι → String}
    {write : ι → WriteM Unit} {read : ι → FillM σ Unit} (start goal : ι → FieldValue γ)
    {is : List ι} (before after : List (String × FieldValue γ))
    (nodup : (before.map (·.1) ++ (is.map key ++ after.map (·.1))).Nodup)
    (step : ∀ i ∈ is, ∀ h : Hole γ, h.ident = key i →
      Conveys (write i) (read i) (embed (h.plug (start i))) (embed (h.plug (goal i)))) :
    Conveys (is.forM write) (is.forM read)
      (embed ⟨before ++ (is.map (fun i => (key i, start i)) ++ after)⟩)
      (embed ⟨before ++ (is.map (fun i => (key i, goal i)) ++ after)⟩) := by
  induction is generalizing before with
  | nil => exact conveys_pure _
  | cons i is ih =>
    obtain ⟨first, others⟩ := List.forall_mem_cons.1 step
    have alone : key i ∉ (before ++ (is.map (fun i => (key i, start i)) ++ after)).map (·.1) := by
      rw [List.map_cons, List.cons_append, List.nodup_middle, List.nodup_cons] at nodup
      simpa [Function.comp_def] using nodup.1
    let h : Hole γ :=
      { before, ident := key i, after := is.map (fun i => (key i, start i)) ++ after
        alone := fun x hx same => alone (List.mem_map.2 ⟨x, hx, same⟩) }
    have rest := ih (before ++ [(key i, goal i)]) (by simpa using nodup) others
    simp only [List.append_assoc, List.singleton_append] at rest
    exact (first h rfl).bind rest

/-- Fields that do not repeat an identifier are what looking them up gives. -/
theorem eq_map_lookup {β : Type} (d : β) {xs : List (String × β)} (nodup : (xs.map (·.1)).Nodup) :
    xs = (xs.map (·.1)).map fun k => (k, (xs.lookup k).getD d) := by
  induction xs with
  | nil => rfl
  | cons x xs ih =>
    obtain ⟨new, nodup⟩ := List.nodup_cons.1 nodup
    rw [List.map_cons, List.map_cons, List.lookup_cons_self]
    refine congrArg (x :: ·) ((ih nodup).trans (List.map_congr_left fun k hk => ?_))
    have differ : (k == x.1) = false := by
      rw [beq_eq_false_iff_ne]
      rintro rfl
      exact new hk
    rw [List.lookup_cons, differ]

namespace Level

/-- The value of a field, of which there is one. -/
def value (own : Level γ) (field : String) : FieldValue γ := (own.get? field).getD (.sequence #[])

variable {custom types} {l : Layout} {own : Level γ}

theorem Suits.fields_eq (suits : own.Suits custom types l) (sound : l.Sound) :
    own.fields = l.flags.map (fun f => (f.ident, own.value f.ident)) ++
      l.fields.map fun f => (f.ident, own.value f.ident) := by
  have all := eq_map_lookup (.sequence #[]) (suits.idents ▸ sound.nodup)
  rw [suits.idents, List.map_append, List.map_map, List.map_map] at all
  exact all

theorem Suits.carried_eq (suits : own.Suits custom types l) (sound : l.Sound) :
    l.carried own = ⟨l.flags.map (fun f => (f.ident, own.value f.ident)) ++
      l.fields.map fun f => (f.ident, f.encoding.carried (own.value f.ident))⟩ := by
  obtain ⟨-, nodup, apart⟩ := List.nodup_append.1 sound.nodup
  rw [Layout.carried, suits.fields_eq sound, List.map_append, List.map_map, List.map_map]
  congr 2
  · refine List.map_congr_left fun f hf => ?_
    have none : l.fields.find? (·.ident = f.ident) = none := by
      rw [List.find?_eq_none]
      intro g hg
      have := apart _ (List.mem_map_of_mem hf) _ (List.mem_map_of_mem hg)
      simpa using this.symm
    simp only [Function.comp_apply, none]
  · refine List.map_congr_left fun f hf => ?_
    simp only [Function.comp_apply, find?_key_of_mem nodup hf]

end Level

/-! ## Whole programs -/

theorem forM_orNop {M : Type → Type} [Monad M] [LawfulMonad M] {g : Op → M Unit} (ops : List Op)
    (idle : g .nop = pure ()) : (if ops.isEmpty then [.nop] else ops).forM g = ops.forM g := by
  cases ops with
  | nil => simp [idle]
  | cons op ops => rfl

/-- A program runs its delegation, then one operation for each flag and one for each field. -/
theorem Layout.forM_program {M : Type → Type} [Monad M] [LawfulMonad M] {l : Layout}
    {onFlag : FlagSlot → Op} {onField : FieldSlot → Op} {g : Op → M Unit}
    (idle : g .nop = pure ()) :
    (l.program onFlag onField).forM g = (do
      (if l.parent.isSome then [Op.delegateParent] else []).forM g
      l.flags.forM fun f => g (onFlag f)
      l.fields.forM fun f => g (onField f)) := by
  unfold program
  rw [forM_orNop _ idle]
  simp only [List.forM_eq_forM, List.forM_append, List.forM_map, bind_assoc]

namespace Record

variable {custom types}

theorem runRead_nop (delegate : FillM (Record γ) Unit) :
    Op.runRead custom types delegate .nop = pure () := by
  funext ⟨r, c⟩
  cases r <;> rfl

theorem conveys_runRead {w : WriteM Unit} {delegate : FillM (Record γ) Unit} {op : Op}
    {own own' : Level γ} {base : Record γ} (other : op ≠ .delegateParent)
    (h : Conveys w (Op.readOwn custom types op) own own') :
    Conveys w (Op.runRead custom types delegate op) (own :: base) (own' :: base) := by
  obtain ⟨xs, emits, fills⟩ := h
  refine ⟨xs, emits, fun p rest => ?_⟩
  have inside := fills.inside (· :: base) (own :: base) p rest
  cases op with
  | delegateParent => exact absurd rfl other
  | _ => exact inside

theorem reading_ne_delegateParent (f : FieldSlot) : Op.reading f ≠ .delegateParent := by
  unfold Op.reading
  cases f.encoding <;> simp

/-- The flags and the fields of a layout are conveyed above any base. -/
theorem conveys_own {write : WriteM Unit} {fill : FillM (Record γ) Unit} {l : Layout}
    {own : Level γ} (sound : l.Sound) (suits : own.Suits custom types l) (base : Record γ) :
    Conveys
      (do
        l.flags.forM fun f => Op.runWrite custom write own (.writeFlag f.ident f.bit)
        l.fields.forM fun f => Op.runWrite custom write own (.writing f))
      (do
        l.flags.forM fun f => Op.runRead custom types fill (.readFlag f.ident f.bit)
        l.fields.forM fun f => Op.runRead custom types fill (.reading f))
      (l.fresh custom :: base) (l.carried own :: base) := by
  have nodup := sound.nodup
  have flags : Conveys
      (l.flags.forM fun f => Op.runWrite custom write own (.writeFlag f.ident f.bit))
      (l.flags.forM fun f => Op.runRead custom types fill (.readFlag f.ident f.bit))
      (l.fresh custom :: base)
      (⟨l.flags.map (fun f => (f.ident, own.value f.ident)) ++
        l.fields.map fun f => (f.ident, f.initial.value custom)⟩ :: base) := by
    apply conveys_steps (· :: base) _ _ [] _ (by simpa [Function.comp_def] using nodup)
    intro f hf h hole
    obtain ⟨b, value⟩ := suits.flag f hf
    rw [Level.value, value, ← hole]
    exact conveys_runRead (by simp) (Op.conveys_flag (sound.bit_le f hf) (hole ▸ value) _)
  have fields : Conveys
      (l.fields.forM fun f => Op.runWrite custom write own (.writing f))
      (l.fields.forM fun f => Op.runRead custom types fill (.reading f))
      (⟨l.flags.map (fun f => (f.ident, own.value f.ident)) ++
        (l.fields.map (fun f => (f.ident, f.initial.value custom)) ++ [])⟩ :: base)
      (⟨l.flags.map (fun f => (f.ident, own.value f.ident)) ++
        (l.fields.map (fun f => (f.ident, f.encoding.carried (own.value f.ident))) ++ [])⟩ ::
          base) := by
    apply conveys_steps (· :: base) _ _ _ [] (by simpa [Function.comp_def] using nodup)
    intro f hf h hole
    obtain ⟨v, value, suits⟩ := suits.field f hf
    rw [Level.value, value]
    exact conveys_runRead (reading_ne_delegateParent f)
      (Op.conveys_field (sound.coherent f hf) hole value suits)
  rw [List.append_nil, List.append_nil, ← suits.carried_eq sound] at fields
  exact flags.bind fields

/-- A lineage of layouts writes a record so that it is restored, but for the casts of numbers. -/
theorem conveys_record {ls : List Layout} (lineage : Layout.Lineage ls) {r : Record γ}
    (suits : List.Forall₂ (Level.Suits custom types) ls r) :
    Conveys (write custom ls r) (fill custom types ls) (fresh custom ls) (carried ls r) := by
  induction suits with
  | nil => exact conveys_pure _
  | @cons l own ls base suits rest ih =>
    have last := lineage.eq_nil
    obtain ⟨sound, -, lineage⟩ := lineage
    rw [write, fill, Layout.writeProgram, Layout.readProgram,
      Layout.forM_program (Op.runWrite_nop _ _ _), Layout.forM_program (runRead_nop _)]
    refine Conveys.bind ?_ (conveys_own sound suits (carried ls base))
    split_ifs with inherits
    · obtain ⟨xs, emits, fills⟩ := ih lineage
      have inside : Conveys (Op.runWrite custom (write custom ls base) own .delegateParent)
          (Op.runRead custom types (fill custom types ls) .delegateParent)
          (l.fresh custom :: fresh custom ls) (l.fresh custom :: carried ls base) :=
        ⟨xs, emits, fills.inside (l.fresh custom :: ·) (l.fresh custom :: fresh custom ls)⟩
      exact inside.bind (conveys_pure _)
    · obtain rfl := last inherits
      cases rest
      exact conveys_pure _

end Record

/-- What a message of a schema that can be generated is written as, it is read back from, whatever
follows and consuming nothing of that; only numbers are cast. -/
theorem exists_fill_write {s : Schema} {settings : Settings} {o : Output}
    (generated : s.generate settings = .ok o) {m : MessageDecl} (hm : m ∈ s.messages) :
    ∃ layouts, s.lineage m = .ok layouts ∧
      ∀ (γ : Type) (custom : CustomTypes γ) (types : TypeTable γ) (r : Record γ),
        List.Forall₂ (Level.Suits custom types) layouts r →
        ∃ xs, (∀ out, Record.write custom layouts r out = .ok () (out.append xs)) ∧
          ∀ p rest, Record.fill custom types layouts ⟨Record.fresh custom layouts, p, xs ++ rest⟩ =
            .ok () ⟨Record.carried layouts r, p + xs.length, rest⟩ := by
  obtain ⟨layouts, found, lineage⟩ := Schema.lineage_of_generate generated hm
  exact ⟨layouts, found, fun γ custom types r suits => Record.conveys_record lineage suits⟩

/-! ### A message with a parent -/

section Speech

open Game

/-- The value types as custom types. -/
def valueTypes : CustomTypes Entity where
  fresh _ := .point {}
  typeId := Entity.typeId
  write := Entity.write
  fill _ := Entity.fill

def soundMessage : MessageDecl where
  name := "SoundMessage"
  protocolId := 1
  fields := [.flag "muted" 9, .primitive "volume" "Number" "writeVarLong"]

def speechMessage : MessageDecl where
  name := "SpeechMessage"
  protocolId := 2
  parent := some "SoundMessage"
  fields :=
    [(FieldDecl.primitive "words" "String" "writeUTF").vector,
      (FieldDecl.object "place" "Point").polymorphic]

def speechSchema : Schema where
  messages := [soundMessage, speechMessage]
  types := [{ name := "Point" }]

def speechLayouts : List Layout :=
  [{ parent := some ⟨"SoundMessage", ""⟩
     flags := []
     fields :=
       [{ name := "words", ident := "words", type := .sequence (.primitive .string)
          isCustom := false, initial := .emptySequence
          encoding := .primitiveVector .utf .string },
         { name := "place", ident := "place", type := .polymorphic ⟨"Point", ""⟩
           isCustom := true, initial := .boxedInstance ⟨"Point", ""⟩
           encoding := .polymorphic ⟨"Point", ""⟩ }]
     imports := [⟨.parent, "SoundMessage", ""⟩, ⟨.custom, "Point", ""⟩] },
    { parent := none
      flags := [{ name := "muted", ident := "muted", position := 9, bit := 1 }]
      fields :=
        [{ name := "volume", ident := "volume", type := .primitive .number, isCustom := false
           initial := .default .number, encoding := .primitive .varLong .number }]
      imports := [] }]

/-- A speech at the given volume. -/
def speech (volume : Binary64) : Record Entity :=
  [⟨[("words", .sequence #[.scalar (.text "now"), .scalar (.text "here")]),
      ("place", .single (.object (.monster { creatureId := 7 })))]⟩,
    ⟨[("muted", .single (.scalar (.boolean true))),
      ("volume", .single (.scalar (.number volume)))]⟩]

theorem suits_speech (volume : Binary64) :
    List.Forall₂ (Level.Suits valueTypes Entity.types) speechLayouts (speech volume) := by
  have place : Conveys (valueTypes.write (.monster { creatureId := 7 }))
      (valueTypes.fill Entity.types) (.monster {}) (.monster { creatureId := 7 }) := by
    refine ⟨_, ?_, Entity.restores_fill (e := .monster { creatureId := 7 }) (by decide) rfl⟩
    show Emits (Entity.write (.monster { creatureId := 7 })) _
    rw [Entity.write_eq]
    exact emits_items (by decide)
  have words : ∀ s ∈ ["now", "here"], s.utf8ByteSize ≤ maxSize := by decide +kernel
  refine .cons ⟨rfl, by simp, ?_⟩ (.cons ⟨rfl, ?_, ?_⟩ .nil)
  · simp only [List.forall_mem_cons]
    refine ⟨⟨_, rfl, by decide, ?_⟩, ⟨_, rfl, .monster {}, rfl, place⟩, by simp⟩
    simpa [Element.Suits, Scalar.primitive, Scalar.Fits] using words
  · simp only [List.forall_mem_cons]
    exact ⟨⟨true, rfl⟩, by simp⟩
  · simp only [List.forall_mem_cons]
    exact ⟨⟨_, rfl, rfl, trivial⟩, by simp⟩

/-- A volume of `1.5` is read back as `1.0`. -/
theorem exists_fill_write_speech :
    ∃ layouts, speechSchema.lineage speechMessage = .ok layouts ∧
      ∃ xs, (∀ out, Record.write valueTypes layouts (speech ⟨0x3FF8000000000000⟩) out =
          .ok () (out.append xs)) ∧
        ∀ p rest, Record.fill valueTypes Entity.types layouts
            ⟨Record.fresh valueTypes layouts, p, xs ++ rest⟩ =
          .ok () ⟨speech ⟨0x3FF0000000000000⟩, p + xs.length, rest⟩ := by
  obtain ⟨o, generated⟩ := exists_of_isOk (x := speechSchema.generate {}) (by decide +kernel)
  obtain ⟨layouts, found, restored⟩ :=
    exists_fill_write generated (m := speechMessage) (by decide)
  have lineage : (speechSchema.lineage speechMessage).toOption = some speechLayouts := by
    decide +kernel
  rw [found] at lineage
  cases lineage
  refine ⟨_, found, ?_⟩
  obtain ⟨xs, emits, fills⟩ :=
    restored Entity valueTypes Entity.types _ (suits_speech ⟨0x3FF8000000000000⟩)
  refine ⟨xs, emits, ?_⟩
  have carried : Record.carried speechLayouts (speech ⟨0x3FF8000000000000⟩) =
      speech ⟨0x3FF0000000000000⟩ := by
    have volume : Method.varLong.carried (.number ⟨0x3FF8000000000000⟩) =
        .number ⟨0x3FF0000000000000⟩ := by decide +kernel
    simp [Record.carried, Layout.carried, speechLayouts, speech, Encoding.carried,
      FieldValue.mapScalar, Element.mapScalar, volume]
    exact ⟨rfl, rfl⟩
  rw [← carried]
  exact fills

end Speech

end WireCodec
