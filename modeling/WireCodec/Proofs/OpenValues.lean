import WireCodec.Proofs.Framing
import WireCodec.Proofs.ItemSequences
import WireCodec.Proofs.Repacking
import WireCodec.Proofs.Resetting

/-!
# Types chosen by the wire

The type of a value of open type is the one that the table has under the id in front of the value,
whatever the value held before and whatever id the type itself reports. Where a value stands depends
on the values before it, whose types were chosen in the same way (`Row`); if the id there is
unknown, the reading ends behind the id and keeps the elements before it.
-/

namespace WireCodec

variable {α σ τ : Type}

/-! ## Tables of given entries -/

namespace IdTable

variable {taken : UInt16 → Fault} {t t' : IdTable α} {id id' : UInt16} {a : α}

theorem find?_register (added : t.register taken id a = .ok t') (id' : UInt16) :
    t.find? id = none ∧ t'.find? id' = if id' = id then some a else t.find? id' := by
  unfold register insert? at added
  split at added
  next t₁ inserted =>
    split at inserted
    · cases inserted
    next free =>
      cases inserted
      cases added
      refine ⟨free, ?_⟩
      split
      next same => exact find?_of_mem (same ▸ mem_place.2 (.inl rfl))
      next other =>
        cases found : t.find? id' with
        | some b => exact find?_of_mem (mem_place.2 (.inr (mem_of_find? found)))
        | none =>
          refine List.lookup_eq_none_iff.2 fun e he => ?_
          rcases mem_place.1 he with rfl | he
          · exact bne_iff_ne.2 other
          · exact List.lookup_eq_none_iff.1 found e he
  next => cases added

theorem find?_foldlM_register {entries : List (UInt16 × α)}
    (made : entries.foldlM (fun t (id, a) => t.register taken id a) t = .ok t') (id : UInt16) :
    t'.find? id = (t.find? id).or (entries.lookup id) := by
  induction entries generalizing t with
  | nil =>
    cases made
    exact (Option.or_none).symm
  | cons e entries ih =>
    obtain ⟨id', a⟩ := e
    rw [List.foldlM_cons] at made
    obtain ⟨t₁, added, made⟩ := bind_eq_ok_iff.1 made
    obtain ⟨free, found⟩ := find?_register added id
    rw [ih made, found, List.lookup_cons]
    by_cases same : id = id'
    · rw [if_pos same, beq_iff_eq.2 same, same, free]
      rfl
    · rw [if_neg same, beq_eq_false_iff_ne.2 same]

/-- A table finds what the first of its entries under an id holds. -/
theorem find?_ofEntries {entries : List (UInt16 × α)} (made : ofEntries taken entries = .ok t)
    (id : UInt16) : t.find? id = entries.lookup id :=
  find?_foldlM_register made id

end IdTable

/-! ## Single reads -/

theorem Reads.run_of_passes {r : ReadM α} {xs : List UInt8} {a : α} {c c' : Cursor}
    (h : Reads r xs a) (passes : c.Passes xs c') : r c = .ok a c' := by
  obtain ⟨p, bytes⟩ := c
  obtain ⟨p', rest⟩ := c'
  obtain ⟨rfl, rfl⟩ : bytes = xs ++ rest ∧ p' = p + xs.length := passes
  exact h p rest

namespace Cursor

variable {c c' : Cursor} {xs : List UInt8}

theorem advance_advance (c : Cursor) (m n : Nat) : (c.advance m).advance n = c.advance (m + n) := by
  simp only [advance, List.drop_drop, Nat.add_assoc]

theorem Passes.eq_advance (h : c.Passes xs c') : c' = c.advance xs.length := by
  obtain ⟨split, moved⟩ := h
  rw [advance, split, List.drop_left, ← moved]

end Cursor

section Actions

variable {s s' : Filling σ} {c c' : Cursor}

theorem assign_of_ok {read : ReadM α} {a : α} (run : read c = .ok a c') (store : σ → α → σ)
    (v : σ) : FillM.assign store read ⟨v, c⟩ = .ok () ⟨store v a, c'⟩ := by
  rw [FillM.assign, run]

theorem assign_of_error {read : ReadM α} {e : Fault} (run : read c = .error e c')
    (store : σ → α → σ) (v : σ) : FillM.assign store read ⟨v, c⟩ = .error e ⟨v, c'⟩ := by
  rw [FillM.assign, run]

theorem within_of_ok {fill : FillM τ Unit} (part : σ → τ) (v : σ) {u : τ}
    (run : fill ⟨part v, c⟩ = .ok () ⟨u, c'⟩) (store : σ → τ → σ) :
    FillM.within part store fill ⟨v, c⟩ = .ok () ⟨store v u, c'⟩ := by
  rw [FillM.within, run]

theorem reading_of_ok {read : ReadM α} {a : α} (run : read c = .ok a c') (v : σ) :
    FillM.reading read ⟨v, c⟩ = .ok a ⟨v, c'⟩ := by
  rw [FillM.reading, run]

theorem exists_of_assign_ok {store : σ → α → σ} {read : ReadM α}
    (run : FillM.assign store read s = .ok () s') :
    ∃ a, read s.cursor = .ok a s'.cursor ∧ s'.value = store s.value a := by
  rw [FillM.assign] at run
  cases read : read s.cursor with
  | ok a c' =>
    rw [read] at run
    cases run
    exact ⟨a, rfl, rfl⟩
  | error e c' =>
    rw [read] at run
    cases run

theorem exists_of_within_ok {part : σ → τ} {store : σ → τ → σ} {fill : FillM τ Unit}
    (run : FillM.within part store fill s = .ok () s') :
    ∃ u, fill ⟨part s.value, s.cursor⟩ = .ok () ⟨u, s'.cursor⟩ ∧ s'.value = store s.value u := by
  rw [FillM.within] at run
  cases filled : fill ⟨part s.value, s.cursor⟩ with
  | ok _ s₁ =>
    rw [filled] at run
    cases run
    exact ⟨s₁.value, rfl, rfl⟩
  | error e s₁ =>
    rw [filled] at run
    cases run

theorem of_reading_ok {read : ReadM α} {a : α} (run : FillM.reading read s = .ok a s') :
    read s.cursor = .ok a s'.cursor ∧ s'.value = s.value := by
  rw [FillM.reading] at run
  cases read : read s.cursor with
  | ok a c' =>
    rw [read] at run
    cases run
    exact ⟨rfl, rfl⟩
  | error e c' =>
    rw [read] at run
    cases run

theorem view_of_ok {κ : Type} {view : σ → κ} {f : FillM σ α} {a : α} (run : f s = .ok a s')
    (h : Keeps view f) : view s'.value = view s.value := by
  have kept := h s
  rwa [stateAfter_of_ok run] at kept

theorem fresh_ok_iff {start u : τ} {fill : FillM τ Unit} {c' : Cursor} :
    FillM.fresh start fill c = .ok u c' ↔ fill ⟨start, c⟩ = .ok () ⟨u, c'⟩ := by
  rw [FillM.fresh]
  cases filled : fill ⟨start, c⟩ with
  | ok _ s =>
    constructor
    · intro run
      cases run
      rfl
    · intro run
      cases run
      rfl
  | error e s =>
    constructor
    · intro run
      cases run
    · intro run
      cases run

end Actions

/-! ## Rows -/

/-- Values stand one after the other from the first cursor to the second; `P` says where a single
value stands. -/
inductive Row (P : α → Cursor → Cursor → Prop) : List α → Cursor → Cursor → Prop
  | nil (c : Cursor) : Row P [] c c
  | cons {x : α} {xs : List α} {c c₁ c' : Cursor} (first : P x c c₁) (others : Row P xs c₁ c') :
    Row P (x :: xs) c c'

section Loops

variable {push : σ → α → σ} {read : ReadM α} {P : α → Cursor → Cursor → Prop} {n : Nat}

/-- A loop that succeeds has read a row. -/
theorem exists_row_of_times_ok (each : ∀ x c c', read c = .ok x c' → P x c c') {s s' : Filling σ}
    (run : FillM.times (.assign push read) n s = .ok () s') :
    ∃ xs, xs.length = n ∧ Row P xs s.cursor s'.cursor ∧ s'.value = xs.foldl push s.value := by
  induction n generalizing s with
  | zero =>
    cases run
    exact ⟨[], rfl, .nil _, rfl⟩
  | succ n ih =>
    obtain ⟨⟨⟩, s₁, first, others⟩ := exists_of_bind_ok run
    obtain ⟨x, here, stored⟩ := exists_of_assign_ok first
    obtain ⟨xs, length, row, grown⟩ := ih others
    refine ⟨x :: xs, congrArg Nat.succ length, .cons (each x _ _ here) row, ?_⟩
    rw [grown, stored]
    rfl

/-- A loop that finds a row, but then fails to read an element, keeps the row. -/
theorem times_of_row (push : σ → α → σ) (each : ∀ x c c', P x c c' → read c = .ok x c')
    {xs : List α} {c c' c₁ : Cursor} (row : Row P xs c c') (fewer : xs.length < n) {e : Fault}
    (failed : read c' = .error e c₁) (v : σ) :
    FillM.times (.assign push read) n ⟨v, c⟩ = .error e ⟨xs.foldl push v, c₁⟩ := by
  induction row generalizing n v with
  | nil c =>
    obtain ⟨n, rfl⟩ := Nat.exists_eq_succ_of_ne_zero (Nat.ne_of_gt fewer)
    exact bind_of_error (assign_of_error failed push v)
  | cons first others ih =>
    obtain ⟨n, rfl⟩ := Nat.exists_eq_succ_of_ne_zero (Nat.ne_of_gt (Nat.zero_lt_of_lt fewer))
    exact (bind_of_ok (assign_of_ok (each _ _ _ first) push v)).trans
      (ih (Nat.lt_of_succ_lt_succ fewer) failed _)

end Loops

/-! ## Ids in front of values -/

namespace TypeTable

variable {types : TypeTable τ} {id : UInt16} {start : τ} {c c' : Cursor}

theorem exists_id_of_readInstance_ok (run : types.readInstance c = .ok start c') :
    ∃ id : UInt16, c.Passes (bigEndian 2 id.toNat) c' ∧ types.find? id = some start := by
  obtain ⟨id, c₁, read, resolved⟩ := exists_of_bind_ok run
  obtain ⟨_, rfl, passes⟩ := readsOnly_readUnsignedShort c id c₁ read
  rw [create, IdTable.get] at resolved
  cases found : types.find? id with
  | some start' =>
    rw [found] at resolved
    cases resolved
    exact ⟨id, passes, found⟩
  | none =>
    rw [found] at resolved
    cases resolved

theorem readInstance_of_find? (here : c.Passes (bigEndian 2 id.toNat) c')
    (bound : types.find? id = some start) : types.readInstance c = .ok start c' :=
  (reads_readInstance bound).run_of_passes here

/-- An unknown id is read before it is refused. -/
theorem readInstance_of_unbound (here : c.Passes (bigEndian 2 id.toNat) c')
    (unbound : types.find? id = none) :
    types.readInstance c = .error (.unknownTypeId id) c' := by
  refine (bind_of_ok ((reads_readUnsignedShort id).run_of_passes here)).trans ?_
  rw [create, IdTable.get, unbound]
  rfl

end TypeTable

namespace Game

/-- The entity stands between the cursors: first an id, then what fills the value that the entries
have under the id to the entity, which is of the same type. -/
inductive Stands (entries : List (UInt16 × Entity)) : Entity → Cursor → Cursor → Prop
  | intro {id : UInt16} {start e : Entity} {c c₁ c' : Cursor}
    (here : c.Passes (bigEndian 2 id.toNat) c₁) (bound : entries.lookup id = some start)
    (filled : Entity.fill ⟨start, c₁⟩ = .ok () ⟨e, c'⟩) (same : e.kind = start.kind) :
    Stands entries e c c'

section Table

variable {entries : List (UInt16 × Entity)} {types : TypeTable Entity}
  (registered : TypeTable.ofEntries entries = .ok types)

include registered

theorem find?_of_registered (id : UInt16) : types.find? id = entries.lookup id :=
  IdTable.find?_ofEntries registered id

theorem stands_of_fill {start e : Entity} {c c₁ c' : Cursor}
    (resolved : types.readInstance c = .ok start c₁)
    (filled : Entity.fill ⟨start, c₁⟩ = .ok () ⟨e, c'⟩) : Stands entries e c c' := by
  obtain ⟨id, here, bound⟩ := TypeTable.exists_id_of_readInstance_ok resolved
  rw [find?_of_registered registered] at bound
  exact .intro here bound filled (start.ends_fill c₁ _ filled).1

theorem readValue_ok_iff {e : Entity} {c c' : Cursor} :
    types.readValue Entity.fill c = .ok e c' ↔ Stands entries e c c' := by
  constructor
  · intro run
    obtain ⟨start, c₁, resolved, run⟩ := exists_of_bind_ok run
    exact stands_of_fill registered resolved (fresh_ok_iff.1 run)
  · rintro ⟨here, bound, filled, -⟩
    rw [← find?_of_registered registered] at bound
    exact (bind_of_ok (TypeTable.readInstance_of_find? here bound)).trans (fresh_ok_iff.2 filled)

end Table

/-! ## Points -/

theorem exists_readShort {c : Cursor} (enough : 2 ≤ c.remaining) :
    ∃ v, readShort c = .ok v (c.advance 2) := by
  have two : (c.rest.take 2).length = 2 := List.length_take_of_le enough
  have read := (reads_readUnsignedShort_of_length two).map UInt16.toInt16
  exact ⟨_, read.run_of_passes (Cursor.passes_advance enough)⟩

theorem cursor_of_readShort {c c' : Cursor} {v : Int16} (run : readShort c = .ok v c') :
    c' = c.advance 2 := by
  obtain ⟨_, rfl, passes⟩ := readsOnly_readShort c v c' run
  have := passes.eq_advance
  rwa [length_bigEndian] at this

theorem Point.exists_fill (p : Point) {c : Cursor} (enough : 4 ≤ c.remaining) :
    ∃ p', fill ⟨p, c⟩ = .ok () ⟨p', c.advance 4⟩ := by
  have enough' : 2 ≤ (c.advance 2).remaining := by
    rw [Cursor.remaining, Cursor.advance, List.length_drop]
    exact Nat.le_sub_of_add_le enough
  obtain ⟨x, readX⟩ := exists_readShort (Nat.le_trans (by decide) enough : 2 ≤ c.remaining)
  obtain ⟨y, readY⟩ := exists_readShort enough'
  rw [Cursor.advance_advance] at readY
  exact ⟨⟨x, y⟩, (bind_of_ok (assign_of_ok readX _ _)).trans (assign_of_ok readY _ _)⟩

theorem Point.cursor_of_fill {p p' : Point} {c c' : Cursor} (run : fill ⟨p, c⟩ = .ok () ⟨p', c'⟩) :
    c' = c.advance 4 := by
  obtain ⟨⟨⟩, s₁, first, second⟩ := exists_of_bind_ok run
  obtain ⟨x, readX, -⟩ := exists_of_assign_ok first
  obtain ⟨y, readY, -⟩ := exists_of_assign_ok second
  have moved : c' = s₁.cursor.advance 2 := cursor_of_readShort readY
  rw [moved, cursor_of_readShort readX, Cursor.advance_advance]

/-! ## The message of actors -/

theorem remaining_of_passes_advance {c c' : Cursor} {xs : List UInt8} {n : Nat}
    (h : (c.advance n).Passes xs c') (some : xs ≠ []) : n ≤ c.remaining := by
  have split : c.rest.drop n = xs ++ c'.rest := h.1
  refine Nat.le_of_not_lt fun beyond => some ?_
  rw [List.drop_of_length_le (Nat.le_of_lt beyond)] at split
  exact (List.append_eq_nil_iff.1 split.symm).1

namespace ActorsMessage

/-- The fields that hold values of open type. -/
def openFields (m : ActorsMessage) : Entity × Array Entity := (m.actor, m.actors)

section Fill

variable {entries : List (UInt16 × Entity)} {types : TypeTable Entity}
  (registered : TypeTable.ofEntries entries = .ok types) {m : ActorsMessage} {c : Cursor}

include registered

/-- The actor stands behind the origin, and the others in a row behind their count. -/
theorem exists_row_of_fill_ok {m' : ActorsMessage} {c' : Cursor}
    (run : fill types ⟨m, c⟩ = .ok () ⟨m', c'⟩) :
    ∃ es c₁ c₂ c₃, Stands entries m'.actor (c.advance 4) c₁ ∧
      c₁.Passes (bigEndian 2 es.length) c₂ ∧ Row (Stands entries) es c₂ c₃ ∧
      m'.actors = m.actors ++ es.toArray := by
  obtain ⟨⟨⟩, _, ⟨⟩, run⟩ := exists_of_bind_ok run
  obtain ⟨⟨⟩, s₁, first, run⟩ := exists_of_bind_ok run
  obtain ⟨⟨⟩, s₂, second, run⟩ := exists_of_bind_ok run
  obtain ⟨⟨⟩, s₃, third, run⟩ := exists_of_bind_ok run
  obtain ⟨⟨⟩, s₅, fourth, rest⟩ := exists_of_bind_ok run
  obtain ⟨n, s₄, counted, loop⟩ := exists_of_bind_ok fourth
  obtain ⟨origin, filledOrigin, value₁⟩ := exists_of_within_ok first
  obtain ⟨start, resolved, value₂⟩ := exists_of_assign_ok second
  obtain ⟨actor, filledActor, value₃⟩ := exists_of_within_ok third
  obtain ⟨count, value₄⟩ := of_reading_ok counted
  obtain ⟨_, ⟨-, rfl⟩, passes⟩ := readsOnly_readCount _ _ _ count
  have each : ∀ e c c', types.readValue Entity.fill c = .ok e c' → Stands entries e c c' :=
    fun _ _ _ => (readValue_ok_iff registered).1
  obtain ⟨es, rfl, row, value₅⟩ := exists_row_of_times_ok each loop
  -- what is read behind the others leaves them and the actor alone
  have kept : m'.openFields = s₅.value.openFields := by
    refine view_of_ok rest ?_
    refine .bind (keeps_extend (by exact fun _ _ => rfl) _) fun _ => ?_
    refine .bind (keeps_extend (by exact fun _ _ => rfl) _) fun _ => ?_
    refine .bind (keeps_assign (by exact fun _ _ => rfl) _) fun _ => ?_
    refine .bind (keeps_assign (by exact fun _ _ => rfl) _) fun _ => ?_
    refine .bind (keeps_assign (by exact fun _ _ => rfl) _) fun _ => ?_
    refine .bind (keeps_assign (by exact fun _ _ => rfl) _) fun _ => ?_
    exact keeps_assign (by exact fun _ _ => rfl) _
  have grown : s₅.value = actorsField.set s₄.value (s₄.value.actors ++ es.toArray) :=
    value₅.trans (actorsField.foldl_push es s₄.value)
  obtain ⟨sameActor, sameActors⟩ := Prod.mk.inj kept
  have actor₅ : s₅.value.actor = actor := by rw [grown, value₄, value₃]; rfl
  have actors₄ : s₄.value.actors = m.actors := by rw [value₄, value₃, value₂, value₁]
  refine ⟨es, s₃.cursor, s₄.cursor, s₅.cursor, ?_, passes, row, ?_⟩
  · rw [value₂] at filledActor
    rw [sameActor, actor₅, ← Point.cursor_of_fill filledOrigin]
    exact stands_of_fill registered resolved filledActor
  · rw [sameActors, grown, ← actors₄]
    rfl

omit registered in
/-- The origin is replaced before anything else is read. -/
theorem exists_bind_origin (m : ActorsMessage) (enough : 4 ≤ c.remaining) :
    ∃ place, ∀ k : Unit → FillM ActorsMessage Unit,
      (FillM.change (fun m => { m with origin := {} }) >>= fun _ =>
        FillM.within origin (fun m origin => { m with origin }) Point.fill >>= k) ⟨m, c⟩ =
        k () ⟨{ m with origin := place }, c.advance 4⟩ := by
  obtain ⟨place, filled⟩ := Point.exists_fill {} enough
  have replaced : FillM.change (fun m : ActorsMessage => { m with origin := {} }) ⟨m, c⟩ =
      .ok () ⟨{ m with origin := {} }, c⟩ := rfl
  have moved := within_of_ok ActorsMessage.origin { m with origin := {} } filled
  exact ⟨place, fun k => (bind_of_ok replaced).trans (bind_of_ok (moved _))⟩

theorem bind_actor_of_stands (m : ActorsMessage) {e : Entity} {c' : Cursor}
    (stands : Stands entries e c c') (k : Unit → FillM ActorsMessage Unit) :
    (FillM.assign (fun m actor => { m with actor }) types.readInstance >>= fun _ =>
      FillM.within actor (fun m actor => { m with actor }) Entity.fill >>= k) ⟨m, c⟩ =
      k () ⟨{ m with actor := e }, c'⟩ := by
  obtain @⟨id, start, _, _, c₁, _, here, bound, filled, -⟩ := stands
  rw [← find?_of_registered registered] at bound
  have resolved := TypeTable.readInstance_of_find? here bound
  have filled := within_of_ok ActorsMessage.actor { m with actor := start } filled
  exact (bind_of_ok (assign_of_ok resolved _ _)).trans (bind_of_ok (filled _))

/-- With an unknown id in front of the actor, no more than the origin is read. -/
theorem fill_of_unbound {id : UInt16} {c₁ : Cursor}
    (here : (c.advance 4).Passes (bigEndian 2 id.toNat) c₁) (unbound : entries.lookup id = none) :
    ∃ place, fill types ⟨m, c⟩ = .error (.unknownTypeId id) ⟨{ m with origin := place }, c₁⟩ := by
  have enough : 4 ≤ c.remaining := remaining_of_passes_advance here (by simp [bigEndian])
  obtain ⟨place, behind⟩ := exists_bind_origin m enough
  rw [← find?_of_registered registered] at unbound
  have unresolved := TypeTable.readInstance_of_unbound here unbound
  exact ⟨place, (behind _).trans (bind_of_error (assign_of_error unresolved _ _))⟩

/-- With an unknown id in front of another value, the values before it are kept. -/
theorem fill_of_unbound_in_row {actor : Entity} {es : List Entity} {count id : UInt16}
    {c₁ c₂ c₃ c₄ : Cursor} (first : Stands entries actor (c.advance 4) c₁)
    (counted : c₁.Passes (bigEndian 2 count.toNat) c₂) (row : Row (Stands entries) es c₂ c₃)
    (fewer : es.length < count.toNat) (here : c₃.Passes (bigEndian 2 id.toNat) c₄)
    (unbound : entries.lookup id = none) :
    ∃ place, fill types ⟨m, c⟩ = .error (.unknownTypeId id)
      ⟨{ m with origin := place, actor, actors := m.actors ++ es.toArray }, c₄⟩ := by
  have enough : 4 ≤ c.remaining := by
    obtain ⟨before, -, -, -⟩ := first
    exact remaining_of_passes_advance before (by simp [bigEndian])
  obtain ⟨place, behind⟩ := exists_bind_origin m enough
  have each : ∀ e c c', Stands entries e c c' → types.readValue Entity.fill c = .ok e c' :=
    fun _ _ _ => (readValue_ok_iff registered).2
  rw [← find?_of_registered registered] at unbound
  have unresolved : types.readValue Entity.fill c₃ = .error (.unknownTypeId id) c₄ :=
    bind_of_error (TypeTable.readInstance_of_unbound here unbound)
  have count := (reads_readUnsignedShort count).map UInt16.toNat |>.run_of_passes counted
  have loop := times_of_row actorsField.push each row fewer unresolved
  refine ⟨place, (behind _).trans ((bind_actor_of_stands registered _ first _).trans ?_)⟩
  refine bind_of_error ((bind_of_ok (reading_of_ok count _)).trans ((loop _).trans ?_))
  rw [actorsField.foldl_push]
  rfl

end Fill

/-- When the message is read, the actor and every value added to the others has the type that the
entries have under the id in front of it, whatever stood in the message. If there is no entry under
such an id, the reading fails right behind the id; the actor is kept if it is the actor's id, and
otherwise the values in front of the id are. -/
theorem types_chosen_by_wire {entries : List (UInt16 × Entity)} {types : TypeTable Entity}
    (registered : TypeTable.ofEntries entries = .ok types) (m : ActorsMessage) (c : Cursor) :
    (∀ m' c', fill types ⟨m, c⟩ = .ok () ⟨m', c'⟩ →
      ∃ es c₁ c₂ c₃, Stands entries m'.actor (c.advance 4) c₁ ∧
        c₁.Passes (bigEndian 2 es.length) c₂ ∧ Row (Stands entries) es c₂ c₃ ∧
        m'.actors = m.actors ++ es.toArray) ∧
    (∀ (id : UInt16) c₁, (c.advance 4).Passes (bigEndian 2 id.toNat) c₁ →
      entries.lookup id = none →
      ∃ place, fill types ⟨m, c⟩ = .error (.unknownTypeId id) ⟨{ m with origin := place }, c₁⟩) ∧
    ∀ actor es (count id : UInt16) c₁ c₂ c₃ c₄, Stands entries actor (c.advance 4) c₁ →
      c₁.Passes (bigEndian 2 count.toNat) c₂ → Row (Stands entries) es c₂ c₃ →
      es.length < count.toNat → c₃.Passes (bigEndian 2 id.toNat) c₄ → entries.lookup id = none →
      ∃ place, fill types ⟨m, c⟩ = .error (.unknownTypeId id)
        ⟨{ m with origin := place, actor, actors := m.actors ++ es.toArray }, c₄⟩ :=
  ⟨fun _ _ run => exists_row_of_fill_ok registered run,
    fun _ _ here unbound => fill_of_unbound registered here unbound,
    fun _ _ _ _ _ _ _ _ first counted row fewer here unbound =>
      fill_of_unbound_in_row registered first counted row fewer here unbound⟩

/-- Entries that have a monster under the id which points report, and a point under another id. -/
def rebound : List (UInt16 × Entity) := [(3, .point {}), (10, .monster {})]

/-- A point under the id `3` and a monster under the id `10`, before a value of the unknown id `9`
and without it. -/
theorem types_chosen_by_wire_rebound :
    ∃ types, TypeTable.ofEntries rebound = .ok types ∧
      (∃ m' c' c₁, fill types ⟨{}, .start ([0, 0, 0, 0, 0, 3, 0, 1, 0, 2] ++ .replicate 27 0)⟩ =
        .ok () ⟨m', c'⟩ ∧ Stands rebound m'.actor ⟨4, [0, 3, 0, 1, 0, 2] ++ .replicate 27 0⟩ c₁) ∧
      ∃ place, fill types ⟨{}, .start ([0, 0, 0, 0, 0, 3, 0, 1, 0, 2, 0, 2] ++
          ([0, 10] ++ .replicate 9 0 ++ [0, 9]))⟩ =
        .error (.unknownTypeId 9)
          ⟨{ origin := place, actor := .point ⟨1, 2⟩, actors := #[.monster {}] }, ⟨25, []⟩⟩ := by
  have registered : TypeTable.ofEntries rebound = .ok ⟨rebound, by decide⟩ := rfl
  have first : ∀ rest, Stands rebound (.point ⟨1, 2⟩) ⟨4, [0, 3, 0, 1, 0, 2] ++ rest⟩
      ⟨10, rest⟩ := by
    intro rest
    have here : Cursor.Passes ⟨4, [0, 3, 0, 1, 0, 2] ++ rest⟩ (bigEndian 2 (3 : UInt16).toNat)
      ⟨6, [0, 1, 0, 2] ++ rest⟩ := ⟨rfl, rfl⟩
    exact .intro here rfl rfl rfl
  have second : ∀ rest, Stands rebound (.monster {}) ⟨12, [0, 10] ++ .replicate 9 0 ++ rest⟩
      ⟨23, rest⟩ := by
    intro rest
    have here : Cursor.Passes ⟨12, [0, 10] ++ .replicate 9 0 ++ rest⟩
      (bigEndian 2 (10 : UInt16).toNat) ⟨14, .replicate 9 0 ++ rest⟩ := ⟨rfl, rfl⟩
    exact .intro here rfl rfl rfl
  refine ⟨_, registered, ?_, ?_⟩
  · obtain ⟨m', c', run⟩ : ∃ m' c', fill ⟨rebound, by decide⟩
        ⟨{}, .start ([0, 0, 0, 0, 0, 3, 0, 1, 0, 2] ++ .replicate 27 0)⟩ = .ok () ⟨m', c'⟩ :=
      ⟨_, _, rfl⟩
    obtain ⟨-, c₁, -, -, stands, -⟩ := (types_chosen_by_wire registered _ _).1 m' c' run
    exact ⟨m', c', c₁, run, stands⟩
  · exact (types_chosen_by_wire registered {} _).2.2 _ _ 2 9 _ _ _ ⟨25, []⟩ (first _) ⟨rfl, rfl⟩
      (.cons (second [0, 9]) (.nil _)) (by decide) ⟨rfl, rfl⟩ rfl

end ActorsMessage

end Game

end WireCodec
