import WireCodec.Wire.Buffer
import WireCodec.Wire.Filling
import WireCodec.Wire.Sequence

/-!
# Actions described by their bytes

An action that writes is described by the bytes it appends (`Emits`, or `Halts` if it fails behind
them), and an action that reads by the bytes it consumes (`Reads` for a value, `Fills` for a value
that is filled). None of these depends on what the buffer holds already, on the position of the
cursor or on what follows the bytes, so that descriptions compose along sequences and loops.
-/

namespace WireCodec

variable {α β ι σ τ : Type}

/-! ## Sequencing -/

section Sequencing

variable {f : EStateM Fault σ α} {g : α → EStateM Fault σ β} {s s' : σ}

theorem bind_of_ok {a : α} (h : f s = .ok a s') : (f >>= g) s = g a s' := by
  show EStateM.bind f g s = _
  rw [EStateM.bind, h]

theorem bind_of_error {e : Fault} (h : f s = .error e s') : (f >>= g) s = .error e s' := by
  show EStateM.bind f g s = _
  rw [EStateM.bind, h]

/-- A sequence succeeds only if its parts do, one after the other. -/
theorem exists_of_bind_ok {b : β} (h : (f >>= g) s = .ok b s') :
    ∃ a s₁, f s = .ok a s₁ ∧ g a s₁ = .ok b s' := by
  cases first : f s with
  | ok a s₁ => exact ⟨a, s₁, rfl, (bind_of_ok first).symm.trans h⟩
  | error e s₁ => exact nomatch (bind_of_error first).symm.trans h

end Sequencing

/-! ## Writing -/

/-- The action succeeds and appends `xs`, whatever the buffer holds. -/
def Emits (w : WriteM Unit) (xs : List UInt8) : Prop := ∀ out, w out = .ok () (out.append xs)

/-- The action appends `xs` and then fails with `e`, whatever the buffer holds. -/
def Halts (w : WriteM Unit) (e : Fault) (xs : List UInt8) : Prop :=
  ∀ out, w out = .error e (out.append xs)

theorem Buffer.append_nil (out : Buffer) : out.append [] = out :=
  Buffer.ext_toList (by simp)

theorem Buffer.append_append (out : Buffer) (xs ys : List UInt8) :
    (out.append xs).append ys = out.append (xs ++ ys) :=
  Buffer.ext_toList (by simp)

theorem emits_put (xs : List UInt8) : Emits (put xs) xs := fun _ => rfl

theorem emits_pure : Emits (pure ()) [] := fun out =>
  congrArg (EStateM.Result.ok ()) out.append_nil.symm

theorem halts_throw (e : Fault) : Halts (throw e) e [] := fun out =>
  congrArg (EStateM.Result.error e) out.append_nil.symm

theorem Emits.bind {w : WriteM Unit} {k : Unit → WriteM Unit} {xs ys : List UInt8}
    (h : Emits w xs) (h' : Emits (k ()) ys) : Emits (w >>= k) (xs ++ ys) := by
  intro out
  rw [bind_of_ok (h out)]
  exact (h' _).trans (by rw [Buffer.append_append])

theorem Emits.bind_halts {w : WriteM Unit} {k : Unit → WriteM Unit} {e : Fault}
    {xs ys : List UInt8} (h : Emits w xs) (h' : Halts (k ()) e ys) :
    Halts (w >>= k) e (xs ++ ys) := by
  intro out
  rw [bind_of_ok (h out)]
  exact (h' _).trans (by rw [Buffer.append_append])

theorem Halts.bind {w : WriteM Unit} {k : Unit → WriteM Unit} {e : Fault} {xs : List UInt8}
    (h : Halts w e xs) : Halts (w >>= k) e xs := by
  intro out
  exact bind_of_error (h out)

theorem emits_forM {w : ι → WriteM Unit} {spell : ι → List UInt8} {is : List ι}
    (h : ∀ i ∈ is, Emits (w i) (spell i)) : Emits (is.forM w) (is.flatMap spell) := by
  induction is with
  | nil => exact emits_pure
  | cons i is ih =>
    rw [List.flatMap_cons]
    exact (h i List.mem_cons_self).bind (ih fun j hj => h j (List.mem_cons_of_mem i hj))

/-! ## Reading -/

/-- The second cursor stands behind the bytes `xs` at the first. -/
def Cursor.Passes (c : Cursor) (xs : List UInt8) (c' : Cursor) : Prop :=
  c.rest = xs ++ c'.rest ∧ c'.position = c.position + xs.length

theorem Cursor.passes_nil (c : Cursor) : c.Passes [] c := ⟨rfl, rfl⟩

theorem Cursor.Passes.trans {c c' c'' : Cursor} {xs ys : List UInt8} (h : c.Passes xs c')
    (h' : c'.Passes ys c'') : c.Passes (xs ++ ys) c'' := by
  refine ⟨?_, ?_⟩
  · rw [h.1, h'.1, List.append_assoc]
  · rw [h'.2, h.2, List.length_append, Nat.add_assoc]

theorem Cursor.passes_advance {c : Cursor} {n : Nat} (h : n ≤ c.remaining) :
    c.Passes (c.rest.take n) (c.advance n) := by
  refine ⟨(List.take_append_drop n c.rest).symm, ?_⟩
  rw [List.length_take_of_le h]
  rfl

/-- On input that starts with `xs` the action reads exactly `xs` and gives `a`. -/
def Reads (r : ReadM α) (xs : List UInt8) (a : α) : Prop :=
  ∀ p rest, r ⟨p, xs ++ rest⟩ = .ok a ⟨p + xs.length, rest⟩

theorem reads_pure (a : α) : Reads (pure a) [] a := fun _ _ => rfl

theorem Reads.bind {r : ReadM α} {k : α → ReadM β} {xs ys : List UInt8} {a : α} {b : β}
    (h : Reads r xs a) (h' : Reads (k a) ys b) : Reads (r >>= k) (xs ++ ys) b := by
  intro p rest
  rw [List.append_assoc, bind_of_ok (h p _)]
  exact (h' _ rest).trans (by rw [List.length_append, Nat.add_assoc])

theorem Reads.bind_nil {r : ReadM α} {k : α → ReadM β} {xs : List UInt8} {a : α} {b : β}
    (h : Reads r xs a) (h' : Reads (k a) [] b) : Reads (r >>= k) xs b := by
  rw [← List.append_nil xs]
  exact h.bind h'

theorem Reads.map {r : ReadM α} {xs : List UInt8} {a : α} (h : Reads r xs a) (f : α → β) :
    Reads (f <$> r) xs (f a) := by
  intro p rest
  show EStateM.map f r _ = _
  rw [EStateM.map, h p]

/-! ## Filling -/

/-- On input that starts with `xs` the action reads exactly `xs` and turns `v` into `v'`. -/
def Fills (f : FillM σ Unit) (xs : List UInt8) (v v' : σ) : Prop :=
  ∀ p rest, f ⟨v, p, xs ++ rest⟩ = .ok () ⟨v', p + xs.length, rest⟩

theorem fills_pure (v : σ) : Fills (pure ()) [] v v := fun _ _ => rfl

theorem Fills.bind {f : FillM σ Unit} {k : Unit → FillM σ Unit} {xs ys : List UInt8}
    {v v' v'' : σ} (h : Fills f xs v v') (h' : Fills (k ()) ys v' v'') :
    Fills (f >>= k) (xs ++ ys) v v'' := by
  intro p rest
  rw [List.append_assoc, bind_of_ok (h p _)]
  exact (h' _ rest).trans (by rw [List.length_append, Nat.add_assoc])

theorem fills_change (f : σ → σ) (v : σ) : Fills (.change f) [] v (f v) := fun _ _ => rfl

theorem Reads.fills_assign {r : ReadM α} {xs : List UInt8} {a : α} (h : Reads r xs a)
    (store : σ → α → σ) (v : σ) : Fills (.assign store r) xs v (store v a) := by
  intro p rest
  rw [FillM.assign, h p]

theorem Fills.within {f : FillM τ Unit} {xs : List UInt8} {part : σ → τ} {v : σ} {u : τ}
    (h : Fills f xs (part v) u) (store : σ → τ → σ) :
    Fills (.within part store f) xs v (store v u) := by
  intro p rest
  rw [FillM.within, h p]

theorem Fills.inside {f : FillM τ Unit} {xs : List UInt8} {u u' : τ} (h : Fills f xs u u')
    (wrap : τ → σ) (v : σ) : Fills (.inside wrap u f) xs v (wrap u') := by
  intro p rest
  rw [FillM.inside, FillM.within, h p]

theorem Fills.fresh {f : FillM τ Unit} {xs : List UInt8} {start u : τ} (h : Fills f xs start u) :
    Reads (FillM.fresh start f) xs u := by
  intro p rest
  rw [FillM.fresh, h p]

/-- A loop reads the elements one after the other. -/
theorem fills_times {r : ReadM α} (push : σ → α → σ) {spell : ι → List UInt8} {result : ι → α}
    {is : List ι} (h : ∀ i ∈ is, Reads r (spell i) (result i)) (v : σ) :
    Fills (.times (.assign push r) is.length) (is.flatMap spell) v
      (is.foldl (fun v i => push v (result i)) v) := by
  induction is generalizing v with
  | nil => exact fills_pure v
  | cons i is ih =>
    rw [List.flatMap_cons, List.length_cons, List.foldl_cons]
    exact ((h i List.mem_cons_self).fills_assign push v).bind
      (ih (fun j hj => h j (List.mem_cons_of_mem i hj)) _)

/-! ## Fields that hold sequences -/

/-- A field of `σ` that holds a sequence. -/
structure SequenceField (σ α : Type) where
  get : σ → Array α
  set : σ → Array α → σ
  set_get : ∀ v, set v (get v) = v := by exact fun _ => rfl
  get_set : ∀ v xs, get (set v xs) = xs := by exact fun _ _ => rfl
  set_set : ∀ v xs ys, set (set v xs) ys = set v ys := by exact fun _ _ _ => rfl

namespace SequenceField

variable (field : SequenceField σ α)

/-- Puts an element behind those of the field. -/
def push (v : σ) (x : α) : σ := field.set v ((field.get v).push x)

theorem foldl_push (xs : List α) (v : σ) :
    xs.foldl field.push v = field.set v (field.get v ++ xs.toArray) := by
  induction xs generalizing v with
  | nil => simp [field.set_get]
  | cons x xs ih => simp [ih, push, field.get_set, field.set_set]

end SequenceField

/-! ## Writing and filling -/

/-- The bytes that `w` writes make `f` turn `v` into `v'`. -/
def Conveys (w : WriteM Unit) (f : FillM σ Unit) (v v' : σ) : Prop :=
  ∃ xs, Emits w xs ∧ Fills f xs v v'

theorem conveys_pure (v : σ) : Conveys (pure ()) (pure ()) v v := ⟨[], emits_pure, fills_pure v⟩

theorem Conveys.bind {w : WriteM Unit} {k : Unit → WriteM Unit} {f : FillM σ Unit}
    {g : Unit → FillM σ Unit} {v v' v'' : σ} (h : Conveys w f v v')
    (h' : Conveys (k ()) (g ()) v' v'') : Conveys (w >>= k) (f >>= g) v v'' := by
  obtain ⟨xs, hw, hf⟩ := h
  obtain ⟨ys, hk, hg⟩ := h'
  exact ⟨xs ++ ys, hw.bind hk, hf.bind hg⟩

end WireCodec
