import WireCodec.Dispatch.MessageTable
import WireCodec.Dispatch.TypeTable
import WireCodec.Proofs.Transport

/-!
# Outcomes of reading

What holds of every value that an action gives when it succeeds, whatever the input is: `Yields` for
a value that is read, `Ends` for a value that is filled from a given one.
-/

namespace WireCodec

variable {α β σ τ : Type}

/-! ## Reading -/

/-- Whatever the action gives satisfies `Q`. -/
def Yields (r : ReadM α) (Q : α → Prop) : Prop := ∀ c a c', r c = .ok a c' → Q a

theorem yields_true (r : ReadM α) : Yields r fun _ => True := fun _ _ _ _ => trivial

theorem yields_pure {a : α} {Q : α → Prop} (h : Q a) : Yields (pure a) Q := by
  intro c b c' run
  cases run
  exact h

theorem yields_throw (e : Fault) (Q : α → Prop) : Yields (throw e) Q := fun _ _ _ run => nomatch run

theorem Yields.bind {r : ReadM α} {k : α → ReadM β} {P : α → Prop} {Q : β → Prop}
    (h : Yields r P) (h' : ∀ a, P a → Yields (k a) Q) : Yields (r >>= k) Q := by
  intro c b c' run
  obtain ⟨a, s, first, second⟩ := exists_of_bind_ok run
  exact h' a (h c a s first) s b c' second

theorem Yields.map {r : ReadM α} {f : α → β} {Q : β → Prop} (h : Yields r fun a => Q (f a)) :
    Yields (f <$> r) Q := by
  rw [← bind_pure_comp]
  exact h.bind fun _ => yields_pure

theorem yields_take (n : Nat) : Yields (take n) fun xs => xs.length = n := by
  intro c xs c' run
  unfold take at run
  simp only at run
  split at run
  · exact nomatch run
  · cases run
    rename_i enough
    have := List.length_take_le n c.rest
    omega

theorem yields_readCount : Yields readCount (· ≤ maxSize) :=
  .map fun _ n _ _ => Nat.le_of_lt_succ n.toNat_lt

theorem yields_readUtf : Yields readUtf fun s => s.utf8ByteSize ≤ maxSize := by
  refine (yields_true readUnsignedShort).bind fun size _ => ?_
  refine (yields_take size.toNat).bind fun xs length => ?_
  split
  · rename_i s decoded
    apply yields_pure
    rw [← length_utf8, ← ofUtf8?_eq_some_iff.1 decoded, length]
    exact Nat.le_of_lt_succ size.toNat_lt
  · exact yields_throw _ _

/-! ## Filling -/

/-- Whatever `v` is filled to satisfies `Q`. -/
def Ends (f : FillM σ Unit) (v : σ) (Q : σ → Prop) : Prop := ∀ c s, f ⟨v, c⟩ = .ok () s → Q s.value

theorem ends_true (f : FillM σ Unit) (v : σ) : Ends f v fun _ => True := fun _ _ _ => trivial

theorem ends_pure {v : σ} {Q : σ → Prop} (h : Q v) : Ends (pure ()) v Q := by
  intro c s run
  cases run
  exact h

theorem Ends.mono {f : FillM σ Unit} {v : σ} {P Q : σ → Prop} (h : Ends f v P)
    (imp : ∀ v', P v' → Q v') : Ends f v Q :=
  fun c s run => imp s.value (h c s run)

theorem Ends.bind {f : FillM σ Unit} {k : Unit → FillM σ Unit} {v : σ} {P Q : σ → Prop}
    (h : Ends f v P) (h' : ∀ v', P v' → Ends (k ()) v' Q) : Ends (f >>= k) v Q := by
  intro c s run
  obtain ⟨⟨⟩, s₁, first, second⟩ := exists_of_bind_ok run
  exact h' s₁.value (h c s₁ first) s₁.cursor s second

theorem ends_change (f : σ → σ) (v : σ) : Ends (.change f) v (· = f v) := by
  intro c s run
  cases run
  rfl

theorem Yields.ends_assign {r : ReadM α} {Q : α → Prop} (h : Yields r Q) (store : σ → α → σ)
    (v : σ) : Ends (.assign store r) v fun v' => ∃ a, Q a ∧ v' = store v a := by
  intro c s run
  rw [FillM.assign] at run
  cases read : r c with
  | error e c' =>
    rw [read] at run
    cases run
  | ok a c' =>
    rw [read] at run
    cases run
    exact ⟨a, h c a c' read, rfl⟩

theorem Ends.within {f : FillM τ Unit} {part : σ → τ} {v : σ} {Q : τ → Prop}
    (h : Ends f (part v) Q) (store : σ → τ → σ) :
    Ends (.within part store f) v fun v' => ∃ u, Q u ∧ v' = store v u := by
  intro c s run
  rw [FillM.within] at run
  cases filled : f ⟨part v, c⟩ with
  | error e s' =>
    rw [filled] at run
    cases run
  | ok u s' =>
    rw [filled] at run
    cases run
    exact ⟨s'.value, h c s' filled, rfl⟩

theorem Ends.inside {f : FillM τ Unit} {u : τ} {Q : τ → Prop} (h : Ends f u Q) (wrap : τ → σ)
    (v : σ) : Ends (.inside wrap u f) v fun v' => ∃ u', Q u' ∧ v' = wrap u' :=
  Ends.within (v := v) (show Ends f ((fun _ => u) v) Q from h) _

/-- An action that fills what the constructor of its value wraps. -/
theorem Ends.wrapped {f : FillM τ Unit} {u : τ} {P : τ → Prop} (h : Ends f u P) (wrap : τ → σ)
    {g : FillM σ Unit} (same : ∀ c, g ⟨wrap u, c⟩ = FillM.inside wrap u f ⟨wrap u, c⟩)
    {Q : σ → Prop} (imp : ∀ u', P u' → Q (wrap u')) : Ends g (wrap u) Q := by
  intro c s run
  obtain ⟨u', hu, filled⟩ := h.inside wrap (wrap u) c s (same c ▸ run)
  exact filled ▸ imp u' hu

theorem Ends.fresh {f : FillM τ Unit} {start : τ} {Q : τ → Prop} (h : Ends f start Q) :
    Yields (FillM.fresh start f) Q := by
  intro c u c' run
  rw [FillM.fresh] at run
  cases filled : f ⟨start, c⟩ with
  | error e s' =>
    rw [filled] at run
    cases run
  | ok u s' =>
    rw [filled] at run
    cases run
    exact h c s' filled

namespace SequenceField

variable {field : SequenceField σ α} {read : ReadM α} {Q : α → Prop}

theorem ends_times (h : Yields read Q) (n : Nat) (v : σ) :
    Ends (.times (.assign field.push read) n) v fun v' => ∃ xs : List α,
      xs.length = n ∧ (∀ x ∈ xs, Q x) ∧ v' = xs.foldl field.push v := by
  induction n generalizing v with
  | zero => exact ends_pure ⟨[], rfl, by simp, rfl⟩
  | succ n ih =>
    refine (h.ends_assign field.push v).bind ?_
    rintro _ ⟨a, ha, rfl⟩
    refine (ih (field.push v a)).mono ?_
    rintro _ ⟨xs, length, each, rfl⟩
    exact ⟨a :: xs, congrArg Nat.succ length, List.forall_mem_cons.2 ⟨ha, each⟩, rfl⟩

/-- A loop adds no more elements than a count can count. -/
theorem ends_extend (h : Yields read Q) (v : σ) :
    Ends (.extend field.push read) v fun v' => ∃ xs : Array α,
      xs.size ≤ maxSize ∧ (∀ x ∈ xs, Q x) ∧ v' = field.set v (field.get v ++ xs) := by
  intro c s run
  change EStateM.bind (FillM.reading readCount) _ _ = _ at run
  rw [EStateM.bind, FillM.reading] at run
  match count : readCount c, run with
  | .ok n c', run =>
    obtain ⟨xs, length, each, filled⟩ := ends_times h n v c' s run
    have small : n ≤ maxSize := yields_readCount c n c' count
    refine ⟨xs.toArray, ?_, ?_, ?_⟩
    · rwa [List.size_toArray, length]
    · simpa using each
    · rw [filled, foldl_push]

end SequenceField

/-! ## Tables -/

theorem IdTable.mem_of_find? {t : IdTable α} {id : UInt16} {a : α} (h : t.find? id = some a) :
    (id, a) ∈ t.entries := by
  obtain ⟨before, after, split, -⟩ := List.lookup_eq_some_iff.1 h
  exact split ▸ List.mem_append_right _ List.mem_cons_self

theorem yields_readInstance (types : TypeTable τ) :
    Yields types.readInstance fun start => ∃ id, types.find? id = some start := by
  refine (yields_true readUnsignedShort).bind fun id _ => ?_
  rw [TypeTable.create, IdTable.get]
  split
  · rename_i start registered
    exact yields_pure ⟨id, registered⟩
  · exact yields_throw _ _

theorem yields_readValue {types : TypeTable τ} {fill : FillM τ Unit} {Q : τ → Prop}
    (h : ∀ id start, types.find? id = some start → Ends fill start Q) :
    Yields (types.readValue fill) Q :=
  (yields_readInstance types).bind fun start ⟨id, registered⟩ => (h id start registered).fresh

namespace MessageTable

variable {messages : MessageTable σ} {fill : FillM σ Unit} {Q : σ → Prop}

theorem yields_parse (h : ∀ id start, messages.find? id = some start → Ends fill start Q)
    (id : UInt16) : Yields (messages.parse fill id) Q := by
  unfold parse create IdTable.get
  split
  · rename_i start registered
    exact (yields_pure (Q := (· = start)) rfl).bind fun _ same =>
      same ▸ (h id start registered).fresh
  · exact (yields_throw _ fun _ => False).bind fun _ => False.elim

/-- A decoded message was filled from one that is registered. -/
theorem of_decode (h : ∀ id start, messages.find? id = some start → Ends fill start Q)
    {packet : List UInt8} {m : σ} (decoded : messages.decode fill packet = .ok m) : Q m := by
  unfold decode at decoded
  split at decoded
  · exact nomatch decoded
  · rename_i id payload _ _
    split at decoded
    · exact nomatch decoded
    · rename_i parsed
      cases decoded
      exact yields_parse h id _ _ _ parsed

end MessageTable

end WireCodec
