import WireCodec.Dispatch.TypeTable
import WireCodec.Program.Record
import WireCodec.Proofs.Transport

/-!
# What a read does to the fields of a value

A value is filled field by field. What is read for a field does not depend on what the field held,
and neither does where the reading ends or fails (`Uniform`): a sequence grows by the elements that
are read, and any other field is replaced. So two values of one type are filled alike, whatever they
held (`Uniform.compares`).
-/

namespace WireCodec

variable {α γ σ τ : Type}

/-! ## Fields -/

/-- What a field holds; an open object is one whose type is read from the wire. -/
inductive FieldState (γ : Type)
  | scalar (v : Scalar)
  | object (v : γ)
  | openObject (v : γ)
  | sequence (es : List (Element γ))

namespace FieldState

/-- What a field that held `x` holds once `y` has been read for it. -/
def follow : FieldState γ → FieldState γ → FieldState γ
  | sequence xs, sequence ys => sequence (xs ++ ys)
  | _, y => y

/-- The fields from the `k`-th on, once `ys` have been read for them. -/
def progress (k : Nat) : List (FieldState γ) → List (FieldState γ) → List (FieldState γ)
  | [], xs => xs
  | y :: ys, xs => progress (k + 1) ys (xs.modify k (·.follow y))

theorem progress_append (k : Nat) (ys zs xs : List (FieldState γ)) :
    progress k (ys ++ zs) xs = progress (k + ys.length) zs (progress k ys xs) := by
  induction ys generalizing k xs with
  | nil => rfl
  | cons y ys ih =>
    rw [List.cons_append, progress, ih, progress, List.length_cons]
    congr 1
    omega

theorem progress_succ (k : Nat) (ys xs : List (FieldState γ)) (x : FieldState γ) :
    progress (k + 1) ys (x :: xs) = x :: progress k ys xs := by
  induction ys generalizing k xs with
  | nil => rfl
  | cons y ys ih => rw [progress, progress, List.modify_succ_cons, ih]

theorem progress_cons (ys xs : List (FieldState γ)) (x y : FieldState γ) :
    progress 0 (y :: ys) (x :: xs) = x.follow y :: progress 0 ys xs := by
  rw [progress, List.modify_zero_cons, progress_succ]

/-- Fields behind those that are read stay. -/
theorem progress_append_of_le {ys xs : List (FieldState γ)} (h : ys.length ≤ xs.length)
    (others : List (FieldState γ)) : progress 0 ys (xs ++ others) = progress 0 ys xs ++ others := by
  induction ys generalizing xs with
  | nil => rfl
  | cons y ys ih =>
    cases xs with
    | nil => simp at h
    | cons x xs =>
      rw [List.cons_append, progress_cons, progress_cons, ih (Nat.le_of_succ_le_succ h),
        List.cons_append]

theorem getElem?_progress_of_le {k i : Nat} {ys : List (FieldState γ)} (h : k + ys.length ≤ i)
    (xs : List (FieldState γ)) : (progress k ys xs)[i]? = xs[i]? := by
  induction ys generalizing k xs with
  | nil => rfl
  | cons y ys ih =>
    rw [List.length_cons] at h
    rw [progress, ih (by omega), List.getElem?_modify]
    simp [show k ≠ i by omega]

section Stops

variable (types : TypeTable γ) (fillValue : FillM γ Unit) (e : Fault) (c : Cursor)

/-- What a read that fails with `e` at `c` leaves of the field at which it fails. A scalar is kept;
so is an open object if its type cannot be resolved, and else what was filled replaces it. An object
and a sequence hold what was read before the failure. -/
def Stops : FieldState γ → Option (FieldState γ) → Prop
  | scalar _, y? => y? = none
  | openObject _, y? => ∃ c₁,
      types.readInstance c₁ = .error e c ∧ y? = none ∨
        ∃ start c₂ v, types.readInstance c₁ = .ok start c₂ ∧
          fillValue ⟨start, c₂⟩ = .error e ⟨v, c⟩ ∧ y? = some (.openObject v)
  | _, y? => ∃ y, y? = some y

end Stops

end FieldState

open FieldState

section Uniform

variable (types : TypeTable γ) (fillValue : FillM γ Unit) (fields : σ → List (FieldState γ))

/-- The action reads the fields from the `k`-th up to the `l`-th, and whatever the value holds, it
reads the same for them and ends alike: with `ys` read for all of them, or with a fault after `ys`
were read for the first ones and `y?` was read, if anything, for the next one. -/
def Uniform (k l : Nat) (f : FillM σ Unit) : Prop :=
  ∀ c,
    (∃ ys c', k + ys.length = l ∧ ∀ v, ∃ v', f ⟨v, c⟩ = .ok () ⟨v', c'⟩ ∧
      fields v' = progress k ys (fields v)) ∨
    ∃ ys y? e c', k + ys.length < l ∧ ∀ v, ∃ v' x, f ⟨v, c⟩ = .error e ⟨v', c'⟩ ∧
      fields v' = progress k (ys ++ y?.toList) (fields v) ∧
      (fields v)[k + ys.length]? = some x ∧ x.Stops types fillValue e c' y?

variable {types fillValue fields}

theorem uniform_pure (k : Nat) : Uniform types fillValue fields k k (pure ()) :=
  fun c => .inl ⟨[], c, rfl, fun v => ⟨v, rfl, rfl⟩⟩

theorem Uniform.le {k l : Nat} {f : FillM σ Unit} (h : Uniform types fillValue fields k l f) :
    k ≤ l := by
  rcases h (.start []) with ⟨ys, -, rfl, -⟩ | ⟨ys, -, -, -, short, -⟩
  · exact Nat.le_add_right k _
  · omega

theorem Uniform.bind {k l m : Nat} {f : FillM σ Unit} {g : Unit → FillM σ Unit}
    (h : Uniform types fillValue fields k l f) (h' : Uniform types fillValue fields l m (g ())) :
    Uniform types fillValue fields k m (f >>= g) := by
  intro c
  rcases h c with ⟨ys, c₁, rfl, first⟩ | ⟨ys, y?, e, c₁, short, first⟩
  · rcases h' c₁ with ⟨zs, c₂, rfl, second⟩ | ⟨zs, z?, e, c₂, short, second⟩
    · refine .inl ⟨ys ++ zs, c₂, by rw [List.length_append, Nat.add_assoc], fun v => ?_⟩
      obtain ⟨v₁, run, filled⟩ := first v
      obtain ⟨v₂, run', filled'⟩ := second v₁
      exact ⟨v₂, (bind_of_ok run).trans run', by rw [filled', filled, progress_append]⟩
    · refine .inr ⟨ys ++ zs, z?, e, c₂, by rw [List.length_append]; omega, fun v => ?_⟩
      obtain ⟨v₁, run, filled⟩ := first v
      obtain ⟨v₂, x, run', filled', held, stops⟩ := second v₁
      refine ⟨v₂, x, (bind_of_ok run).trans run', ?_, ?_, stops⟩
      · rw [filled', filled, ← progress_append, List.append_assoc]
      · rw [filled, getElem?_progress_of_le (Nat.le_add_right _ _)] at held
        rw [List.length_append, ← Nat.add_assoc]
        exact held
  · have later : k + ys.length < m := Nat.lt_of_lt_of_le short (Uniform.le h')
    refine .inr ⟨ys, y?, e, c₁, later, fun v => ?_⟩
    obtain ⟨v₁, x, run, filled, held, stops⟩ := first v
    exact ⟨v₁, x, bind_of_error run, filled, held, stops⟩

/-! ### One field -/

/-- What is read for a field is stored in it, and in no other. -/
def Stores (fields : σ → List (FieldState γ)) (k : Nat) (v v' : σ) (y : FieldState γ) : Prop :=
  fields v' = (fields v).modify k (·.follow y)

/-- A scalar is read before it is stored. -/
theorem uniform_assign {k : Nat} {read : ReadM α} {store : σ → α → σ} (state : α → Scalar)
    (scalar : ∀ v, (∃ x, (fields v)[k]? = some (.scalar x)) ∧
      ∀ a, Stores fields k v (store v a) (.scalar (state a))) :
    Uniform types fillValue fields k (k + 1) (.assign store read) := by
  intro c
  cases run : read c with
  | ok a c' =>
    refine .inl ⟨[.scalar (state a)], c', rfl, fun v => ⟨store v a, ?_, (scalar v).2 a⟩⟩
    rw [FillM.assign, run]
  | error e c' =>
    refine .inr ⟨[], none, e, c', Nat.lt_succ_self k, fun v => ?_⟩
    obtain ⟨⟨x, held⟩, -⟩ := scalar v
    exact ⟨v, .scalar x, by rw [FillM.assign, run], rfl, held, rfl⟩

section Objects

variable {k : Nat} {part : σ → τ} {store : σ → τ → σ} {fill : FillM τ Unit}

/-- A part that has just been stored is filled from what was stored, not from what it held. -/
theorem within_stored (part_store : ∀ v u, part (store v u) = u)
    (store_store : ∀ v u u', store (store v u) u' = store v u') (v : σ) (u : τ) (c : Cursor) :
    FillM.within part store fill ⟨store v u, c⟩ =
      FillM.within (fun _ => u) store fill ⟨v, c⟩ := by
  simp only [FillM.within, part_store, store_store]

/-- An object is replaced by a default value, which is then filled. -/
theorem uniform_object (wrap : τ → γ) {start : τ}
    (object : ∀ v, ∃ x, (fields v)[k]? = some (.object x))
    (part_store : ∀ v u, part (store v u) = u)
    (store_store : ∀ v u u', store (store v u) u' = store v u')
    (stores : ∀ v u, Stores fields k v (store v u) (.object (wrap u))) :
    Uniform types fillValue fields k (k + 1) (do
      .change fun v => store v start
      .within part store fill) := by
  intro c
  have replaced : ∀ v, (FillM.change (fun v => store v start) >>= fun _ => .within part store fill)
      ⟨v, c⟩ = FillM.within (fun _ => start) store fill ⟨v, c⟩ :=
    fun v => within_stored part_store store_store v start c
  cases run : fill ⟨start, c⟩ with
  | ok _ s =>
    refine .inl ⟨[.object (wrap s.value)], s.cursor, rfl, fun v => ⟨store v s.value, ?_, stores v _⟩⟩
    rw [replaced, FillM.within, run]
  | error e s =>
    refine .inr ⟨[], some (.object (wrap s.value)), e, s.cursor, Nat.lt_succ_self k, fun v => ?_⟩
    obtain ⟨x, held⟩ := object v
    refine ⟨store v s.value, .object x, ?_, stores v _, held, _, rfl⟩
    rw [replaced, FillM.within, run]

/-- An open object is replaced by a value of the type that is read, which is then filled. -/
theorem uniform_openObject {part : σ → γ} {store : σ → γ → σ}
    (object : ∀ v, ∃ x, (fields v)[k]? = some (.openObject x))
    (part_store : ∀ v u, part (store v u) = u)
    (store_store : ∀ v u u', store (store v u) u' = store v u')
    (stores : ∀ v u, Stores fields k v (store v u) (.openObject u)) :
    Uniform types fillValue fields k (k + 1) (do
      .assign store types.readInstance
      .within part store fillValue) := by
  intro c
  cases resolved : types.readInstance c with
  | error e c' =>
    refine .inr ⟨[], none, e, c', Nat.lt_succ_self k, fun v => ?_⟩
    obtain ⟨x, held⟩ := object v
    refine ⟨v, .openObject x, bind_of_error ?_, rfl, held, c, .inl ⟨resolved, rfl⟩⟩
    rw [FillM.assign, resolved]
  | ok start c₁ =>
    have replaced : ∀ v, (FillM.assign store types.readInstance >>= fun _ =>
        .within part store fillValue) ⟨v, c⟩ =
          FillM.within (fun _ => start) store fillValue ⟨v, c₁⟩ := by
      intro v
      refine (bind_of_ok (a := ()) ?_).trans (within_stored part_store store_store v start c₁)
      rw [FillM.assign, resolved]
    cases run : fillValue ⟨start, c₁⟩ with
    | ok _ s =>
      refine .inl ⟨[.openObject s.value], s.cursor, rfl, fun v => ⟨store v s.value, ?_, stores v _⟩⟩
      rw [replaced, FillM.within, run]
    | error e s =>
      refine .inr ⟨[], some (.openObject s.value), e, s.cursor, Nat.lt_succ_self k, fun v => ?_⟩
      obtain ⟨x, held⟩ := object v
      refine ⟨store v s.value, .openObject x, ?_, stores v _, held, c,
        .inr ⟨start, c₁, s.value, resolved, run, rfl⟩⟩
      rw [replaced, FillM.within, run]

end Objects

/-! ### Sequences -/

theorem modify_congr {k : Nat} {xs : List α} {x : α} {f g : α → α} (held : xs[k]? = some x)
    (same : f x = g x) : xs.modify k f = xs.modify k g := by
  apply List.ext_getElem?
  intro i
  by_cases here : k = i
  · subst here
    simp [held, same]
  · simp [here]

/-- A loop reads the same elements whatever stands before them. -/
theorem times_assign (push : σ → α → σ) (read : ReadM α) (n : Nat) (c : Cursor) :
    ∃ xs : List α,
      (∃ c', ∀ v, FillM.times (.assign push read) n ⟨v, c⟩ = .ok () ⟨xs.foldl push v, c'⟩) ∨
      ∃ e c', ∀ v, FillM.times (.assign push read) n ⟨v, c⟩ = .error e ⟨xs.foldl push v, c'⟩ := by
  induction n generalizing c with
  | zero => exact ⟨[], .inl ⟨c, fun _ => rfl⟩⟩
  | succ n ih =>
    cases run : read c with
    | error e c' =>
      refine ⟨[], .inr ⟨e, c', fun v => bind_of_error ?_⟩⟩
      rw [FillM.assign, run]
      rfl
    | ok a c₁ =>
      have first : ∀ v, FillM.assign push read ⟨v, c⟩ = .ok () ⟨push v a, c₁⟩ := by
        intro v
        rw [FillM.assign, run]
      obtain ⟨xs, ⟨c', others⟩ | ⟨e, c', others⟩⟩ := ih c₁
      · exact ⟨a :: xs, .inl ⟨c', fun v => (bind_of_ok (first v)).trans (others _)⟩⟩
      · exact ⟨a :: xs, .inr ⟨e, c', fun v => (bind_of_ok (first v)).trans (others _)⟩⟩

/-- The elements that are read are put behind those already there. -/
theorem uniform_extend (field : SequenceField σ α) (element : α → Element γ) {read : ReadM α}
    {k : Nat}
    (held : ∀ v, (fields v)[k]? = some (.sequence ((field.get v).toList.map element)))
    (stores : ∀ v xs, fields (field.set v xs) =
      (fields v).modify k fun _ => .sequence (xs.toList.map element)) :
    Uniform types fillValue fields k (k + 1) (.extend field.push read) := by
  intro c
  have grows : ∀ v (xs : List α),
      Stores fields k v (xs.foldl field.push v) (.sequence (xs.map element)) := by
    intro v xs
    rw [field.foldl_push, Stores, stores]
    apply modify_congr (held v)
    simp [follow]
  cases count : readCount c with
  | error e c' =>
    refine .inr ⟨[], some (.sequence []), e, c', Nat.lt_succ_self k, fun v => ?_⟩
    refine ⟨v, _, bind_of_error ?_, grows v [], held v, _, rfl⟩
    rw [FillM.reading, count]
  | ok n c₁ =>
    have loop : ∀ v, FillM.extend field.push read ⟨v, c⟩ =
        FillM.times (.assign field.push read) n ⟨v, c₁⟩ := by
      intro v
      refine bind_of_ok (a := n) ?_
      rw [FillM.reading, count]
    obtain ⟨xs, ⟨c', run⟩ | ⟨e, c', run⟩⟩ := times_assign field.push read n c₁
    · refine .inl ⟨[.sequence (xs.map element)], c', rfl, fun v => ?_⟩
      exact ⟨_, (loop v).trans (run v), grows v xs⟩
    · refine .inr ⟨[], some (.sequence (xs.map element)), e, c', Nat.lt_succ_self k, fun v => ?_⟩
      exact ⟨_, _, (loop v).trans (run v), grows v xs, held v, _, rfl⟩

/-! ### Parents -/

/-- The fields of a parent are read into the parent. -/
theorem Uniform.parent {inherited : τ → List (FieldState γ)} {n : Nat} {fill : FillM τ Unit}
    (h : Uniform types fillValue inherited 0 n fill) {part : σ → τ} {store : σ → τ → σ}
    (own : σ → List (FieldState γ))
    (split : ∀ v, fields v = inherited (part v) ++ own v)
    (count : ∀ u, (inherited u).length = n)
    (stored : ∀ v u, part (store v u) = u ∧ own (store v u) = own v) :
    Uniform types fillValue fields 0 n (.within part store fill) := by
  intro c
  rcases h c with ⟨ys, c', length, run⟩ | ⟨ys, y?, e, c', short, run⟩
  · refine .inl ⟨ys, c', length, fun v => ?_⟩
    rw [Nat.zero_add] at length
    obtain ⟨u, filled, state⟩ := run (part v)
    refine ⟨store v u, by rw [FillM.within, filled], ?_⟩
    rw [split, split, (stored _ _).1, (stored _ _).2, state, progress_append_of_le]
    exact Nat.le_of_eq (length.trans (count _).symm)
  · refine .inr ⟨ys, y?, e, c', short, fun v => ?_⟩
    obtain ⟨u, x, filled, state, held, stops⟩ := run (part v)
    refine ⟨store v u, x, by rw [FillM.within, filled], ?_, ?_, stops⟩
    · rw [split, split, (stored _ _).1, (stored _ _).2, state, progress_append_of_le]
      rw [count, List.length_append]
      cases y? <;> simp <;> omega
    · rw [split, List.getElem?_append_left (by rw [count]; omega)]
      exact held

end Uniform

/-! ## Two values filled from the same bytes -/

namespace FieldState

/-- The field is no sequence or an empty one. -/
def Vacant : FieldState γ → Prop
  | sequence es => es = []
  | _ => True

@[simp] theorem vacant_scalar (v : Scalar) : (scalar v : FieldState γ).Vacant := trivial

@[simp] theorem vacant_object (v : γ) : (object v).Vacant := trivial

@[simp] theorem vacant_openObject (v : γ) : (openObject v).Vacant := trivial

@[simp] theorem vacant_sequence {es : List (Element γ)} : (sequence es).Vacant ↔ es = [] := .rfl

theorem Vacant.follow_eq {d : FieldState γ} (h : d.Vacant) (y : FieldState γ) : d.follow y = y := by
  cases d with
  | sequence es =>
    cases y with
    | sequence ys => rw [follow, show es = [] from h, List.nil_append]
    | _ => rfl
  | _ => rfl

/-- What is read for all fields, seen at a value and at a vacant one. -/
theorem progress_eq_zipWith {ys xs ds : List (FieldState γ)} (hx : xs.length = ys.length)
    (hd : ds.length = ys.length) (vacant : ∀ d ∈ ds, d.Vacant) :
    progress 0 ys xs = List.zipWith follow xs (progress 0 ys ds) := by
  induction ys generalizing xs ds with
  | nil =>
    obtain rfl := List.eq_nil_of_length_eq_zero hx
    rfl
  | cons y ys ih =>
    obtain ⟨x, xs, rfl⟩ := List.exists_cons_of_length_eq_add_one hx
    obtain ⟨d, ds, rfl⟩ := List.exists_cons_of_length_eq_add_one hd
    obtain ⟨first, others⟩ := List.forall_mem_cons.1 vacant
    rw [progress_cons, progress_cons, List.zipWith_cons_cons, first.follow_eq,
      ih (Nat.succ.inj hx) (Nat.succ.inj hd) others]

section Interrupted

variable (types : TypeTable γ) (fillValue : FillM γ Unit) (e : Fault) (c : Cursor)

/-- What a read that fails at a field makes of it, where it held `x` and where it held `d`. A scalar
is kept. So is an open object if its type cannot be resolved; else it is what was filled. An object
and a sequence are read up to the failure. -/
def Broken (x x' d d' : FieldState γ) : Prop :=
  match x with
  | scalar _ => x' = x ∧ d' = d
  | openObject _ => ∃ c₁,
      types.readInstance c₁ = .error e c ∧ x' = x ∧ d' = d ∨
        ∃ start c₂ v, types.readInstance c₁ = .ok start c₂ ∧
          fillValue ⟨start, c₂⟩ = .error e ⟨v, c⟩ ∧ x' = openObject v ∧ d' = openObject v
  | _ => x' = x.follow d'

/-- What a read that fails at one of the fields makes of all of them, where they held the first list
and where they held the third. Those before it have been read, and those behind it are kept. -/
inductive Interrupted : (xs xs' ds ds' : List (FieldState γ)) → Prop
  | here {x x' d d' : FieldState γ} (broken : Broken types fillValue e c x x' d d')
      (xs ds : List (FieldState γ)) : Interrupted (x :: xs) (x' :: xs) (d :: ds) (d' :: ds)
  | later {xs xs' ds ds' : List (FieldState γ)} (rest : Interrupted xs xs' ds ds')
      (x d d' : FieldState γ) :
      Interrupted (x :: xs) (x.follow d' :: xs') (d :: ds) (d' :: ds')

variable {types fillValue e c}

theorem Stops.broken {x : FieldState γ} {y? : Option (FieldState γ)}
    (h : x.Stops types fillValue e c y?) {d : FieldState γ} (vacant : d.Vacant) :
    Broken types fillValue e c x (y?.elim x x.follow) d (y?.elim d d.follow) := by
  have replaced : ∀ y, d.follow y = y := vacant.follow_eq
  cases x with
  | scalar v =>
    obtain rfl : y? = none := h
    exact ⟨rfl, rfl⟩
  | openObject u =>
    obtain ⟨c₁, ⟨unresolved, rfl⟩ | ⟨start, c₂, v, resolved, failed, rfl⟩⟩ := h
    · exact ⟨c₁, .inl ⟨unresolved, rfl, rfl⟩⟩
    · exact ⟨c₁, .inr ⟨start, c₂, v, resolved, failed, rfl, replaced _⟩⟩
  | object v =>
    obtain ⟨y, rfl⟩ : ∃ y, y? = some y := h
    show (object v).follow y = (object v).follow (d.follow y)
    rw [replaced]
  | sequence es =>
    obtain ⟨y, rfl⟩ : ∃ y, y? = some y := h
    show (sequence es).follow y = (sequence es).follow (d.follow y)
    rw [replaced]

theorem Stops.interrupted {x : FieldState γ} {y? : Option (FieldState γ)}
    (h : x.Stops types fillValue e c y?) {ys xs ds : List (FieldState γ)}
    (held : xs[ys.length]? = some x) (length : xs.length = ds.length)
    (vacant : ∀ d ∈ ds, d.Vacant) :
    Interrupted types fillValue e c xs (progress 0 (ys ++ y?.toList) xs) ds
      (progress 0 (ys ++ y?.toList) ds) := by
  induction ys generalizing xs ds with
  | nil =>
    obtain ⟨rest, rfl⟩ := List.head?_eq_some_iff.1 (List.head?_eq_getElem?.trans held)
    obtain ⟨d, ds, rfl⟩ := List.exists_cons_of_length_eq_add_one length.symm
    have broken := h.broken (vacant d List.mem_cons_self)
    cases y? with
    | none => exact .here broken rest ds
    | some y =>
      rw [List.nil_append, Option.toList_some, progress_cons, progress_cons]
      exact .here broken rest ds
  | cons y ys ih =>
    cases xs with
    | nil => simp at held
    | cons x₁ xs =>
      obtain ⟨d, ds, rfl⟩ := List.exists_cons_of_length_eq_add_one length.symm
      obtain ⟨first, others⟩ := List.forall_mem_cons.1 vacant
      have rest := ih (by simpa using held) (Nat.succ.inj length) others
      rw [List.cons_append, progress_cons, progress_cons, first.follow_eq]
      exact rest.later x₁ d y

end Interrupted

end FieldState

section Compares

variable {κ : Type} (types : TypeTable γ) (fillValue : FillM γ Unit) (kind : σ → κ)
  (fields : σ → List (FieldState γ))

/-- How `s` is filled, compared with how `d` is filled from the same bytes: both succeed or both
fail, with the same fault and at the same cursor, and neither changes its kind. -/
def Compares (s d : σ) :
    (filledS filledD : EStateM.Result Fault (Filling σ) Unit) → Prop
  | .ok _ ⟨s', c⟩, .ok _ ⟨d', c'⟩ =>
    c = c' ∧ kind s' = kind s ∧ kind d' = kind s ∧
      fields s' = List.zipWith follow (fields s) (fields d')
  | .error e ⟨s', c⟩, .error e' ⟨d', c'⟩ =>
    e = e' ∧ c = c' ∧ kind s' = kind s ∧ kind d' = kind s ∧
      Interrupted types fillValue e c (fields s) (fields s') (fields d) (fields d')
  | _, _ => False

variable {types fillValue kind fields}

/-- A value and a vacant one of its kind are filled alike if their fields are. -/
theorem Uniform.compares {own : τ → List (FieldState γ)} {n : Nat} {fill : FillM τ Unit}
    (h : Uniform types fillValue own 0 n fill) (wrap : τ → σ) {start : τ}
    (vacant : ∀ d ∈ own start, d.Vacant) (u : τ) (c : Cursor)
    (count : ∀ u, (own u).length = n)
    (wrapped : ∀ u, fields (wrap u) = own u ∧ kind (wrap u) = kind (wrap start)) :
    Compares types fillValue kind fields (wrap u) (wrap start)
      (FillM.inside wrap u fill ⟨wrap u, c⟩) (FillM.inside wrap start fill ⟨wrap start, c⟩) := by
  have fields_wrap : ∀ u, fields (wrap u) = own u := fun u => (wrapped u).1
  have kind_wrap : ∀ u u', kind (wrap u) = kind (wrap u') :=
    fun u u' => (wrapped u).2.trans (wrapped u').2.symm
  rcases h c with ⟨ys, c', length, run⟩ | ⟨ys, y?, e, c', short, run⟩
  · obtain ⟨u', filled, state⟩ := run u
    obtain ⟨d', filled', state'⟩ := run start
    rw [FillM.inside, FillM.within, filled, FillM.inside, FillM.within, filled']
    refine ⟨rfl, kind_wrap _ _, kind_wrap _ _, ?_⟩
    rw [fields_wrap, fields_wrap, fields_wrap, state, state']
    rw [Nat.zero_add] at length
    exact progress_eq_zipWith (by rw [count, length]) (by rw [count, length]) vacant
  · obtain ⟨u', x, filled, state, held, stops⟩ := run u
    obtain ⟨d', -, filled', state', -, -⟩ := run start
    rw [FillM.inside, FillM.within, filled, FillM.inside, FillM.within, filled']
    refine ⟨rfl, rfl, kind_wrap _ _, kind_wrap _ _, ?_⟩
    rw [fields_wrap, fields_wrap, fields_wrap, fields_wrap, state, state']
    rw [Nat.zero_add] at held
    exact stops.interrupted held (by rw [count, count]) vacant

end Compares

end WireCodec
