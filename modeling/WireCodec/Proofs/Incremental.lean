import WireCodec.Dispatch.TypeTable
import WireCodec.Proofs.Transport
import WireCodec.Wire.Item
import WireCodec.Wire.Packet

/-!
# Reading from input that goes on

A reader looks at nothing behind the bytes that it reads: with more input it gives the same value,
or fails in the same way (`Incremental`). Only a shortage changes, and by just as many bytes as are
added; once they suffice, the reading goes on behind them, and it never goes back (`Forward`).
-/

namespace WireCodec

variable {α β σ τ s : Type}

/-! ## More input -/

/-- States that hold input. -/
class HasInput (s : Type) where
  input : s → List UInt8
  /-- The state with `more` behind its input. -/
  feed : s → List UInt8 → s
  input_feed : ∀ c more, input (feed c more) = input c ++ more := by exact fun _ _ => rfl

export HasInput (input feed input_feed)

instance : HasInput Cursor where
  input c := c.rest
  feed c more := ⟨c.position, c.rest ++ more⟩

instance : HasInput (Filling σ) where
  input s := s.cursor.rest
  feed s more := ⟨s.value, feed s.cursor more⟩

/-- States that hold a cursor. -/
class HasCursor (s : Type) extends HasInput s where
  cursor : s → Cursor
  rest_cursor : ∀ c, (cursor c).rest = input c := by exact fun _ => rfl

export HasCursor (cursor rest_cursor)

instance : HasCursor Cursor where
  cursor c := c

instance : HasCursor (Filling σ) where
  cursor s := s.cursor

/-- What a fault becomes with `k` more bytes of input; none if they make up for the shortage. -/
def Fault.fed (k : Nat) : Fault → Option Fault
  | unexpectedEnd missing => if k < missing then some (unexpectedEnd (missing - k)) else none
  | e => some e

theorem Fault.fed_unexpectedEnd {k missing : Nat} {e : Fault} :
    (unexpectedEnd missing).fed k = some e ↔
      k < missing ∧ unexpectedEnd (missing - k) = e := by
  rw [fed]
  split <;> simp [*]

/-- Only a shortage is made up for. -/
theorem Fault.fed_eq_none {k : Nat} {e : Fault} :
    e.fed k = none ↔ ∃ missing, e = unexpectedEnd missing ∧ missing ≤ k := by
  cases e <;> simp [fed]

/-- With more input the action ends in the same way, but for a shortage. -/
structure Incremental [HasInput s] (r : EStateM Fault s α) : Prop where
  ok : ∀ {c a c'}, r c = .ok a c' → ∀ more, r (feed c more) = .ok a (feed c' more)
  error : ∀ {c e c'}, r c = .error e c' → ∀ {more e'}, e.fed more.length = some e' →
    r (feed c more) = .error e' (feed c' more)
  /-- A shortage is of at least one byte. -/
  genuine : ∀ {c e c'}, r c = .error e c' → e.fed 0 = some e

/-- If an action reads its input to the end, all that a part of the input lacks is bytes. -/
theorem Incremental.shortage [HasInput s] {r : EStateM Fault s α} (h : Incremental r) {c c' : s}
    {rest : List UInt8} {a : α} (run : r (feed c rest) = .ok a c') (ends : input c' = [])
    (more : rest ≠ []) :
    ∃ n d, r c = .error (.unexpectedEnd n) d ∧ 1 ≤ n ∧ n ≤ rest.length := by
  cases cut : r c with
  | ok b d =>
    cases (h.ok cut rest).symm.trans run
    rw [input_feed] at ends
    exact absurd (List.append_eq_nil_iff.1 ends).2 more
  | error e d =>
    cases left : e.fed rest.length with
    | some e' => exact nomatch (h.error cut left).symm.trans run
    | none =>
      obtain ⟨n, rfl, few⟩ := Fault.fed_eq_none.1 left
      obtain ⟨missing, -⟩ := Fault.fed_unexpectedEnd.1 (h.genuine cut)
      exact ⟨n, d, rfl, missing, few⟩

/-! ## Moving forward -/

/-- The state that an action leaves, whether it succeeds or fails. -/
def stateAfter (r : EStateM Fault s α) (c : s) : s :=
  match r c with
  | .ok _ c' => c'
  | .error _ c' => c'

theorem stateAfter_of_ok {r : EStateM Fault s α} {c c' : s} {a : α} (h : r c = .ok a c') :
    stateAfter r c = c' := by
  rw [stateAfter, h]

theorem stateAfter_of_error {r : EStateM Fault s α} {c c' : s} {e : Fault}
    (h : r c = .error e c') : stateAfter r c = c' := by
  rw [stateAfter, h]

/-- The position at which the input ends. -/
def Cursor.limit (c : Cursor) : Nat := c.position + c.remaining

theorem Cursor.Passes.limit_eq {c c' : Cursor} {xs : List UInt8} (h : c.Passes xs c') :
    c'.limit = c.limit := by
  unfold Cursor.limit Cursor.remaining
  rw [h.1, h.2, List.length_append, Nat.add_assoc]

theorem Cursor.Passes.position_le {c c' : Cursor} {xs : List UInt8} (h : c.Passes xs c') :
    c.position ≤ c'.position := by
  rw [h.2]
  exact Nat.le_add_right _ _

/-- The action moves over the bytes that it reads, and once a shortage is made up for, it moves over
the bytes that were missing. -/
structure Forward [HasCursor s] (r : EStateM Fault s α) : Prop extends Incremental r where
  moves : ∀ c, ∃ xs, (cursor c).Passes xs (cursor (stateAfter r c))
  overcomes : ∀ {c n c'}, r c = .error (.unexpectedEnd n) c' → ∀ {more : List UInt8},
    n ≤ more.length → (cursor c).limit + n ≤ (cursor (stateAfter r (feed c more))).position

section Moving

variable [HasCursor s] {r : EStateM Fault s α}

/-- The end of the input stays where it is. -/
theorem Forward.limit_eq (h : Forward r) (c : s) :
    (cursor (stateAfter r c)).limit = (cursor c).limit := by
  obtain ⟨xs, moved⟩ := h.moves c
  exact moved.limit_eq

theorem Forward.limit_eq_of_ok (h : Forward r) {c c' : s} {a : α} (run : r c = .ok a c') :
    (cursor c').limit = (cursor c).limit := by
  rw [← stateAfter_of_ok run]
  exact h.limit_eq c

theorem Forward.position_le (h : Forward r) (c : s) :
    (cursor c).position ≤ (cursor (stateAfter r c)).position := by
  obtain ⟨xs, moved⟩ := h.moves c
  exact moved.position_le

/-- An action that does not go beyond a part of the input needs no more than that part. -/
theorem Forward.ok_of_feed (h : Forward r) {c c' : s} {more : List UInt8} {a : α}
    (run : r (feed c more) = .ok a c') (within : (cursor c').position ≤ (cursor c).limit) :
    ∃ d, r c = .ok a d ∧ feed d more = c' := by
  cases cut : r c with
  | ok b d =>
    cases (h.ok cut more).symm.trans run
    exact ⟨d, rfl, rfl⟩
  | error e d =>
    cases left : e.fed more.length with
    | some e' => exact nomatch (h.error cut left).symm.trans run
    | none =>
      obtain ⟨n, rfl, enough⟩ := Fault.fed_eq_none.1 left
      obtain ⟨missing, -⟩ := Fault.fed_unexpectedEnd.1 (h.genuine cut)
      have beyond := h.overcomes cut enough
      rw [stateAfter_of_ok run] at beyond
      omega

end Moving

section Rules

variable [HasCursor s]

theorem forward_pure (a : α) : Forward (pure a : EStateM Fault s α) where
  ok run _ := by
    cases run
    rfl
  error run := nomatch run
  genuine run := nomatch run
  moves c := ⟨[], (cursor c).passes_nil⟩
  overcomes run := nomatch run

/-- A fault that is no shortage. -/
def Fault.Lasting (e : Fault) : Prop := ∀ k, e.fed k = some e

theorem Fault.Lasting.ne_unexpectedEnd {e : Fault} (h : e.Lasting) (n : Nat) :
    e ≠ unexpectedEnd n := by
  rintro rfl
  have := h n
  rw [fed, if_neg (Nat.lt_irrefl n)] at this
  exact nomatch this

theorem forward_throw {e : Fault} (h : e.Lasting) :
    Forward (throw e : EStateM Fault s α) where
  ok run := nomatch run
  error run _ _ fed := by
    cases run
    cases (h _).symm.trans fed
    rfl
  genuine run := by
    cases run
    exact h 0
  moves c := ⟨[], (cursor c).passes_nil⟩
  overcomes run := by
    cases run
    exact absurd rfl (h.ne_unexpectedEnd _)

theorem forward_ofExcept {x : Except Fault α} (h : ∀ e, x = .error e → e.Lasting) :
    Forward (MonadExcept.ofExcept x : EStateM Fault s α) := by
  cases x with
  | ok a => exact forward_pure a
  | error e => exact forward_throw (h e rfl)

/-- A sequence moves on from where its first part stops. -/
theorem moves_bind {r : EStateM Fault s α} {k : α → EStateM Fault s β} (h : Forward r)
    (h' : ∀ a, Forward (k a)) (c : s) :
    ∃ xs ys, (cursor c).Passes xs (cursor (stateAfter r c)) ∧
      (cursor (stateAfter r c)).Passes ys (cursor (stateAfter (r >>= k) c)) := by
  obtain ⟨xs, first⟩ := h.moves c
  cases run : r c with
  | ok a c₁ =>
    obtain ⟨ys, second⟩ := (h' a).moves c₁
    refine ⟨xs, ys, first, ?_⟩
    have : stateAfter (r >>= k) c = stateAfter (k a) c₁ := by
      rw [stateAfter, bind_of_ok run, stateAfter]
    rwa [this, stateAfter_of_ok run]
  | error e c₁ =>
    refine ⟨xs, [], first, ?_⟩
    rw [stateAfter_of_error run, stateAfter_of_error (bind_of_error run)]
    exact Cursor.passes_nil _

theorem Forward.bind {r : EStateM Fault s α} {k : α → EStateM Fault s β} (h : Forward r)
    (h' : ∀ a, Forward (k a)) : Forward (r >>= k) where
  ok run more := by
    obtain ⟨a, c₁, first, second⟩ := exists_of_bind_ok run
    exact (bind_of_ok (h.ok first more)).trans ((h' a).ok second more)
  error {c e c'} run more e' fed := by
    cases first : r c with
    | ok a c₁ =>
      have second := (bind_of_ok first).symm.trans run
      exact (bind_of_ok (h.ok first more)).trans ((h' a).error second fed)
    | error e₁ c₁ =>
      cases (bind_of_error first).symm.trans run
      exact bind_of_error (h.error first fed)
  genuine {c e c'} run := by
    cases first : r c with
    | ok a c₁ => exact (h' a).genuine ((bind_of_ok first).symm.trans run)
    | error e₁ c₁ =>
      cases (bind_of_error first).symm.trans run
      exact h.genuine first
  moves c := by
    obtain ⟨xs, ys, first, second⟩ := moves_bind h h' c
    exact ⟨xs ++ ys, first.trans second⟩
  overcomes {c n c'} run more enough := by
    obtain ⟨xs, ys, -, second⟩ := moves_bind h h' (feed c more)
    cases first : r c with
    | ok a c₁ =>
      -- the shortage is one of the second part, which starts where the first one stops
      obtain ⟨zs, moved⟩ := h.moves c
      rw [stateAfter_of_ok first] at moved
      have overcome := (h' a).overcomes ((bind_of_ok first).symm.trans run) enough
      have : stateAfter (r >>= k) (feed c more) = stateAfter (k a) (feed c₁ more) := by
        rw [stateAfter, bind_of_ok (h.ok first more), stateAfter]
      rwa [this, ← moved.limit_eq]
    | error e₁ c₁ =>
      cases (bind_of_error first).symm.trans run
      exact Nat.le_trans (h.overcomes first enough) second.position_le

theorem Forward.map {r : EStateM Fault s α} (h : Forward r) (f : α → β) : Forward (f <$> r) := by
  rw [← bind_pure_comp]
  exact h.bind fun a => forward_pure (f a)

end Rules

/-! ## Readers -/

@[simp] theorem remaining_feed (c : Cursor) (more : List UInt8) :
    (feed c more).remaining = c.remaining + more.length :=
  List.length_append

theorem forward_take (n : Nat) : Forward (take n) where
  ok {c xs c'} run more := by
    by_cases enough : n ≤ c.remaining
    · cases (run_take_of_le enough).symm.trans run
      have enough' : n ≤ (feed c more).remaining := by
        rw [remaining_feed]
        omega
      refine (run_take_of_le enough').trans ?_
      simp [feed, Cursor.advance, List.take_append_of_le_length enough,
        List.drop_append_of_le_length enough]
    · exact nomatch (run_take_of_lt (Nat.lt_of_not_le enough)).symm.trans run
  error {c e c'} run more e' fed := by
    by_cases enough : n ≤ c.remaining
    · exact nomatch (run_take_of_le enough).symm.trans run
    · cases (run_take_of_lt (Nat.lt_of_not_le enough)).symm.trans run
      obtain ⟨few, rfl⟩ := Fault.fed_unexpectedEnd.1 fed
      have short : (feed c more).remaining < n := by
        rw [remaining_feed]
        omega
      refine (run_take_of_lt short).trans ?_
      rw [remaining_feed, Nat.sub_add_eq]
  genuine {c e c'} run := by
    by_cases enough : n ≤ c.remaining
    · exact nomatch (run_take_of_le enough).symm.trans run
    · cases (run_take_of_lt (Nat.lt_of_not_le enough)).symm.trans run
      exact Fault.fed_unexpectedEnd.2 ⟨by omega, rfl⟩
  moves c := by
    by_cases enough : n ≤ c.remaining
    · have after : stateAfter (take n) c = _ := stateAfter_of_ok (run_take_of_le enough)
      rw [after]
      exact ⟨_, Cursor.passes_advance enough⟩
    · have after : stateAfter (take n) c = _ :=
        stateAfter_of_error (run_take_of_lt (Nat.lt_of_not_le enough))
      rw [after]
      exact ⟨[], Cursor.passes_nil c⟩
  overcomes {c m c'} run more enough := by
    by_cases held : n ≤ c.remaining
    · exact nomatch (run_take_of_le held).symm.trans run
    · cases (run_take_of_lt (Nat.lt_of_not_le held)).symm.trans run
      have enough' : n ≤ (feed c more).remaining := by
        rw [remaining_feed]
        omega
      have after : stateAfter (take n) (feed c more) = _ :=
        stateAfter_of_ok (run_take_of_le enough')
      rw [after]
      show c.position + c.remaining + (n - c.remaining) ≤ c.position + n
      omega

theorem forward_takeByte : Forward takeByte where
  ok {c b c'} run more := by
    obtain ⟨p, _ | ⟨b', rest⟩⟩ := c
    · exact nomatch run
    · cases run
      rfl
  error {c e c'} run more e' fed := by
    obtain ⟨p, _ | ⟨b', rest⟩⟩ := c
    · cases run
      obtain ⟨none, rfl⟩ := Fault.fed_unexpectedEnd.1 fed
      obtain rfl : more = [] := List.eq_nil_of_length_eq_zero (by omega)
      rfl
    · exact nomatch run
  genuine {c e c'} run := by
    obtain ⟨p, _ | ⟨b', rest⟩⟩ := c
    · cases run
      rfl
    · exact nomatch run
  moves c := by
    obtain ⟨p, _ | ⟨b, rest⟩⟩ := c
    · exact ⟨[], Cursor.passes_nil _⟩
    · exact ⟨[b], rfl, rfl⟩
  overcomes {c n c'} run more enough := by
    obtain ⟨p, _ | ⟨b', rest⟩⟩ := c
    · cases run
      cases more with
      | nil => exact absurd enough (by decide)
      | cons b more => exact Nat.le_refl _
    · exact nomatch run

/-- The digits at the cursor, onto the `shift` bits of `value`. -/
def readDigits (width shift value : Nat) : ReadM Nat :=
  fun c => readGroups width shift value c.rest c.position

theorem readDigits_eq (width shift value : Nat) :
    readDigits width shift value = takeByte >>= fun b =>
      if width ≤ shift then throw (.varIntTooLong width)
      else if b < 128 then pure (value + (b.toNat % 128) <<< shift)
      else readDigits width (shift + 7) (value + (b.toNat % 128) <<< shift) := by
  funext ⟨p, bytes⟩
  cases bytes with
  | nil => rfl
  | cons b rest =>
    have byte : takeByte ⟨p, b :: rest⟩ = .ok b ⟨p + 1, rest⟩ := rfl
    rw [readDigits, readGroups, bind_of_ok byte]
    by_cases full : width ≤ shift
    · rw [if_pos full, if_pos full]
      rfl
    · rw [if_neg full, if_neg full]
      by_cases last : b < 128
      · rw [if_pos last, if_pos last]
        rfl
      · rw [if_neg last, if_neg last, readDigits]

theorem forward_readDigits (width shift value : Nat) :
    Forward (readDigits width shift value) := by
  -- once the digits cover the width, the reading ends
  induction left : width - shift using Nat.strongRecOn generalizing shift value with
  | ind left ih =>
    rw [readDigits_eq]
    refine forward_takeByte.bind fun b => ?_
    split
    · exact forward_throw fun _ => rfl
    · split
      · exact forward_pure _
      · exact ih (width - (shift + 7)) (by omega) _ _ rfl

theorem forward_readVar (width : Nat) : Forward (readVar width) :=
  forward_readDigits width 0 0

theorem forward_takeNat (k : Nat) : Forward (takeNat k) := (forward_take k).map _

theorem forward_readBoolean : Forward readBoolean := forward_takeByte.map _

theorem forward_readByte : Forward readByte := forward_takeByte.map _

theorem forward_readUnsignedShort : Forward readUnsignedShort :=
  (forward_takeNat 2).map _

theorem forward_readShort : Forward readShort := forward_readUnsignedShort.map _

theorem forward_readUnsignedInt : Forward readUnsignedInt := (forward_takeNat 4).map _

theorem forward_readInt : Forward readInt := forward_readUnsignedInt.map _

theorem forward_readDouble : Forward readDouble := (forward_takeNat 8).map _

theorem forward_readVarUnsignedShort : Forward readVarUnsignedShort :=
  (forward_readVar 16).map _

theorem forward_readVarShort : Forward readVarShort :=
  forward_readVarUnsignedShort.map _

theorem forward_readVarUnsignedInt : Forward readVarUnsignedInt :=
  (forward_readVar 32).map _

theorem forward_readVarInt : Forward readVarInt := forward_readVarUnsignedInt.map _

theorem forward_readVarUnsignedLong : Forward readVarUnsignedLong :=
  (forward_readVar 64).map _

theorem forward_readVarLong : Forward readVarLong := forward_readVarUnsignedLong.map _

theorem forward_readCount : Forward readCount := forward_readUnsignedShort.map _

theorem forward_readUtf : Forward readUtf := by
  refine forward_readUnsignedShort.bind fun size => ?_
  refine (forward_take size.toNat).bind fun bytes => ?_
  split
  · exact forward_pure _
  · exact forward_throw fun _ => rfl

theorem forward_readFlag (bit : UInt8) : Forward (readFlag bit) := by
  refine forward_takeByte.bind fun byte => forward_ofExcept fun e refused => ?_
  unfold FlagByte.get at refused
  split at refused
  · cases refused
    exact fun _ => rfl
  · exact nomatch refused

/-- Every item is read incrementally. -/
theorem ItemShape.forward_read (shape : ItemShape) : Forward shape.read := by
  cases shape with
  | boolean => exact forward_readBoolean.map _
  | byte => exact forward_readByte.map _
  | unsignedByte => exact forward_takeByte.map _
  | short => exact forward_readShort.map _
  | unsignedShort => exact forward_readUnsignedShort.map _
  | int => exact forward_readInt.map _
  | unsignedInt => exact forward_readUnsignedInt.map _
  | float => exact (forward_readUnsignedInt.map _).map _
  | double => exact forward_readDouble.map _
  | varShort => exact forward_readVarShort.map _
  | varUnsignedShort => exact forward_readVarUnsignedShort.map _
  | varInt => exact forward_readVarInt.map _
  | varUnsignedInt => exact forward_readVarUnsignedInt.map _
  | varLong => exact forward_readVarLong.map _
  | varUnsignedLong => exact forward_readVarUnsignedLong.map _
  | utf => exact forward_readUtf.map _
  | bytes n => exact (forward_take n).map _
  | count => exact forward_readCount.map _
  | flag bit => exact (forward_readFlag bit).map _

theorem forward_readHeader : Forward readHeader := by
  refine forward_readUnsignedShort.bind fun raw => ?_
  dsimp only
  split
  · exact (forward_pure 0).bind fun _ => forward_pure _
  · exact (forward_takeByte.map _).bind fun _ => forward_pure _
  · exact (forward_readUnsignedShort.map _).bind fun _ => forward_pure _
  · exact forward_takeByte.bind fun _ => forward_readUnsignedShort.bind fun _ =>
      (forward_pure _).bind fun _ => forward_pure _

theorem forward_readPacket : Forward readPacket :=
  forward_readHeader.bind fun header =>
    (forward_take header.length).bind fun _ => forward_pure _

/-! ## Filling -/

/-- An action that runs another one on a part of its state. -/
theorem Forward.through {t : Type} [HasCursor s] [HasCursor t] {r : EStateM Fault t β}
    (h : Forward r) {f : EStateM Fault s α} (enter : s → t) (result : β → t → α)
    (leave : s → β → t → s) (abandon : s → t → s)
    (runs : ∀ c b d, r (enter c) = .ok b d → f c = .ok (result b d) (leave c b d))
    (fails : ∀ c e d, r (enter c) = .error e d → f c = .error e (abandon c d))
    (enter_feed : ∀ c more, enter (feed c more) = feed (enter c) more)
    (result_feed : ∀ b d more, result b (feed d more) = result b d)
    (leave_feed : ∀ c b d more, leave (feed c more) b (feed d more) = feed (leave c b d) more)
    (abandon_feed : ∀ c d more, abandon (feed c more) (feed d more) = feed (abandon c d) more)
    (cursor_enter : ∀ c, cursor (enter c) = cursor c)
    (cursor_leave : ∀ c b d, cursor (leave c b d) = cursor d)
    (cursor_abandon : ∀ c d, cursor (abandon c d) = cursor d) :
    Forward f := by
  have after : ∀ c, cursor (stateAfter f c) = cursor (stateAfter r (enter c)) := by
    intro c
    cases inner : r (enter c) with
    | ok b d =>
      rw [stateAfter_of_ok inner, stateAfter_of_ok (runs c b d inner), cursor_leave]
    | error e d =>
      rw [stateAfter_of_error inner, stateAfter_of_error (fails c e d inner), cursor_abandon]
  exact {
    ok {c a c'} run more := by
      cases inner : r (enter c) with
      | ok b d =>
        cases (runs c b d inner).symm.trans run
        have fed := h.ok inner more
        rw [← enter_feed] at fed
        rw [runs _ _ _ fed, result_feed, leave_feed]
      | error e d => exact nomatch (fails c e d inner).symm.trans run
    error {c e c'} run more e' left := by
      cases inner : r (enter c) with
      | ok b d => exact nomatch (runs c b d inner).symm.trans run
      | error e₁ d =>
        cases (fails c e₁ d inner).symm.trans run
        have fed := h.error inner left
        rw [← enter_feed] at fed
        rw [fails _ _ _ fed, abandon_feed]
    genuine {c e c'} run := by
      cases inner : r (enter c) with
      | ok b d => exact nomatch (runs c b d inner).symm.trans run
      | error e₁ d =>
        cases (fails c e₁ d inner).symm.trans run
        exact h.genuine inner
    moves c := by
      rw [after, ← cursor_enter]
      exact h.moves (enter c)
    overcomes {c n c'} run more enough := by
      rw [after, enter_feed, ← cursor_enter]
      cases inner : r (enter c) with
      | ok b d => exact nomatch (runs c b d inner).symm.trans run
      | error e₁ d =>
        cases (fails c e₁ d inner).symm.trans run
        exact h.overcomes inner enough }

section Filling

variable {read : ReadM α} {fill : FillM τ Unit}

theorem Forward.reading (h : Forward read) :
    Forward (FillM.reading read : FillM σ α) := by
  refine h.through (·.cursor) (fun a _ => a) (fun s _ c => ⟨s.value, c⟩) (fun s c => ⟨s.value, c⟩)
    (fun ⟨v, c⟩ a d run => by rw [FillM.reading, run])
    (fun ⟨v, c⟩ e d run => by rw [FillM.reading, run]) ?_ ?_ ?_ ?_ ?_ ?_ ?_ <;>
      intros <;> rfl

theorem Forward.assign (h : Forward read) (store : σ → α → σ) :
    Forward (FillM.assign store read) := by
  refine h.through (·.cursor) (fun _ _ => ()) (fun s a c => ⟨store s.value a, c⟩)
    (fun s c => ⟨s.value, c⟩)
    (fun ⟨v, c⟩ a d run => by rw [FillM.assign, run])
    (fun ⟨v, c⟩ e d run => by rw [FillM.assign, run]) ?_ ?_ ?_ ?_ ?_ ?_ ?_ <;>
      intros <;> rfl

theorem Forward.within (h : Forward fill) (part : σ → τ) (store : σ → τ → σ) :
    Forward (FillM.within part store fill) := by
  refine h.through (fun s => ⟨part s.value, s.cursor⟩) (fun _ _ => ())
    (fun s _ s' => ⟨store s.value s'.value, s'.cursor⟩)
    (fun s s' => ⟨store s.value s'.value, s'.cursor⟩)
    (fun ⟨v, c⟩ a d run => by rw [FillM.within, run])
    (fun ⟨v, c⟩ e d run => by rw [FillM.within, run]) ?_ ?_ ?_ ?_ ?_ ?_ ?_ <;>
      intros <;> rfl

theorem Forward.inside (h : Forward fill) (wrap : τ → σ) (u : τ) :
    Forward (FillM.inside wrap u fill) :=
  h.within _ _

theorem Forward.fresh (h : Forward fill) (start : τ) :
    Forward (FillM.fresh start fill) := by
  refine h.through (fun c => ⟨start, c⟩) (fun _ s => s.value) (fun _ _ s => s.cursor)
    (fun _ s => s.cursor)
    (fun c a d run => by rw [FillM.fresh, run])
    (fun c e d run => by rw [FillM.fresh, run]) ?_ ?_ ?_ ?_ ?_ ?_ ?_ <;>
      intros <;> rfl

theorem forward_change (f : σ → σ) : Forward (FillM.change f) where
  ok run _ := by
    cases run
    rfl
  error run := nomatch run
  genuine run := nomatch run
  moves s := ⟨[], s.cursor.passes_nil⟩
  overcomes run := nomatch run

/-- An action that is chosen by the value to be filled. -/
theorem forward_of_cases {f : FillM σ Unit}
    (h : ∀ v, ∃ g : FillM σ Unit, Forward g ∧ ∀ c, f ⟨v, c⟩ = g ⟨v, c⟩) : Forward f := by
  have after : ∀ {v} {g : FillM σ Unit}, (∀ c, f ⟨v, c⟩ = g ⟨v, c⟩) →
      ∀ c, stateAfter f ⟨v, c⟩ = stateAfter g ⟨v, c⟩ := by
    intro v g same c
    rw [stateAfter, same, stateAfter]
  exact {
    ok {s a s'} run more := by
      obtain ⟨g, forward, same⟩ := h s.value
      exact (same _).trans (forward.ok ((same s.cursor).symm.trans run) more)
    error {s e s'} run more e' left := by
      obtain ⟨g, forward, same⟩ := h s.value
      exact (same _).trans (forward.error ((same s.cursor).symm.trans run) left)
    genuine {s e s'} run := by
      obtain ⟨g, forward, same⟩ := h s.value
      exact forward.genuine ((same s.cursor).symm.trans run)
    moves s := by
      obtain ⟨g, forward, same⟩ := h s.value
      rw [show stateAfter f s = _ from after same s.cursor]
      exact forward.moves s
    overcomes {s n s'} run more enough := by
      obtain ⟨g, forward, same⟩ := h s.value
      rw [show stateAfter f (feed s more) = _ from after same (feed s.cursor more)]
      exact forward.overcomes ((same s.cursor).symm.trans run) enough }

theorem Forward.times {f : FillM σ Unit} (h : Forward f) (n : Nat) :
    Forward (f.times n) := by
  induction n with
  | zero => exact forward_pure ()
  | succ n ih => exact h.bind fun _ => ih

theorem Forward.extend (h : Forward read) (push : σ → α → σ) :
    Forward (FillM.extend push read) :=
  forward_readCount.reading.bind fun n => (h.assign push).times n

end Filling

/-! ## Types -/

section Types

variable {types : TypeTable τ}

theorem forward_readInstance : Forward types.readInstance := by
  refine forward_readUnsignedShort.bind fun id => forward_ofExcept fun e unknown => ?_
  unfold TypeTable.create IdTable.get at unknown
  split at unknown
  · exact nomatch unknown
  · cases unknown
    exact fun _ => rfl

theorem Forward.readValue {fill : FillM τ Unit} (h : Forward fill) :
    Forward (types.readValue fill) :=
  forward_readInstance.bind h.fresh

end Types

end WireCodec
