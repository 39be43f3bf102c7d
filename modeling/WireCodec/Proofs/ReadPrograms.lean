import WireCodec.Proofs.Truncation

/-!
# Programs of read operations

A program reads operation by operation, each chosen by what was read before, and stops at the first
fault. It moves forward within its input and looks at nothing beyond where it stops: more input
changes nothing but a shortage, and a shortage is exactly what the input lacks.
-/

namespace WireCodec.Game

/-! ## Programs -/

/-- What an operation leaves. -/
inductive Reading
  /-- A plain read that failed leaves nothing. -/
  | nothing
  | item (i : Item)
  | header (h : Header)
  | value (e : Entity)
  | message (m : Message)
  deriving DecidableEq, Repr

/-- An operation of a reader. -/
inductive ReadOperation
  | item (shape : ItemShape)
  | header
  /-- Reads the id of a type and gives its default value. -/
  | create (types : TypeTable Entity)
  /-- Fills a value that exists. -/
  | value (start : Entity)
  /-- Fills a message that exists. -/
  | message (types : TypeTable Entity) (start : Message)

/-- Runs an operation; a value or a message that is not filled to its end is left as far as it
is. -/
def ReadOperation.perform : ReadOperation → FillM Reading Unit
  | item shape => .assign (fun _ i => .item i) shape.read
  | header => .assign (fun _ h => .header h) readHeader
  | create types => .assign (fun _ e => .value e) types.readInstance
  | value start => .inside .value start Entity.fill
  | message types start => .inside .message start (Message.fill types)

/-- A program of operations, each one chosen by what those before it left. -/
inductive ReadProgram
  | done
  | step (op : ReadOperation) (next : Reading → ReadProgram)

/-- What an operation left, and the position behind it. -/
structure ReadStep where
  left : Reading
  position : Nat
  deriving DecidableEq, Repr

/-- The course of a program: its steps, the fault of the last one if it failed, and the position at
which the program stopped. -/
structure Trace where
  steps : List ReadStep := []
  fault : Option Fault := none
  position : Nat
  deriving DecidableEq, Repr

namespace Trace

/-- The positions behind the steps, and the last one. -/
def positions (t : Trace) : List Nat := t.steps.map (·.position) ++ [t.position]

/-- A step in front of others. -/
def behind (t : Trace) (first : ReadStep) : Trace := { t with steps := first :: t.steps }

/-- What a course becomes with `k` more bytes of input; none if they make up for a shortage. -/
def fed (k : Nat) (t : Trace) : Option Trace :=
  match t.fault with
  | none => some t
  | some e => (e.fed k).map fun e' => { t with fault := some e' }

theorem fed_of_none {k : Nat} {t : Trace} (h : t.fault = none) : t.fed k = some t := by
  rw [fed, h]

theorem fed_of_some {k : Nat} {t : Trace} {e e' : Fault} (h : t.fault = some e)
    (left : e.fed k = some e') : t.fed k = some { t with fault := some e' } := by
  rw [fed, h]
  exact congrArg (Option.map _) left

theorem fed_behind (k : Nat) (t : Trace) (first : ReadStep) :
    (t.behind first).fed k = (t.fed k).map (·.behind first) := by
  obtain ⟨steps, _ | e, position⟩ := t
  · rfl
  · rw [fed, fed, Option.map_map]
    rfl

end Trace

namespace ReadProgram

/-- Runs a program up to its first fault. -/
def run : ReadProgram → Cursor → Trace
  | done, c => { position := c.position }
  | step op next, c =>
    match op.perform ⟨.nothing, c⟩ with
    | .ok _ s => ((next s.value).run s.cursor).behind ⟨s.value, s.cursor.position⟩
    | .error e s => ⟨[⟨s.value, s.cursor.position⟩], some e, s.cursor.position⟩

variable {op : ReadOperation} {next : Reading → ReadProgram} {c : Cursor} {s : Filling Reading}

theorem run_of_ok (h : op.perform ⟨.nothing, c⟩ = .ok () s) :
    (step op next).run c =
      ((next s.value).run s.cursor).behind ⟨s.value, s.cursor.position⟩ := by
  rw [run, h]

theorem run_of_error {e : Fault} (h : op.perform ⟨.nothing, c⟩ = .error e s) :
    (step op next).run c = ⟨[⟨s.value, s.cursor.position⟩], some e, s.cursor.position⟩ := by
  rw [run, h]

end ReadProgram

/-! ## One operation -/

theorem ReadOperation.forward_perform (op : ReadOperation) : Forward op.perform := by
  cases op with
  | item shape => exact shape.forward_read.assign fun _ i => Reading.item i
  | header => exact forward_readHeader.assign fun _ h => Reading.header h
  | create types => exact forward_readInstance.assign fun _ e => Reading.value e
  | value start => exact Entity.forward_fill.inside _ start
  | message types start => exact Message.forward_fill.inside _ start

/-! ## Whole programs -/

namespace ReadProgram

variable {c : Cursor}

/-- A program moves forward and stays within its input. -/
theorem positions_run (program : ReadProgram) (c : Cursor) :
    (program.run c).positions.Pairwise (· ≤ ·) ∧
      ∀ p ∈ (program.run c).positions, c.position ≤ p ∧ p ≤ c.limit := by
  induction program generalizing c with
  | done =>
    refine ⟨List.pairwise_singleton _ _, fun p hp => ?_⟩
    rw [List.mem_singleton.1 hp]
    exact ⟨Nat.le_refl _, Nat.le_add_right _ _⟩
  | step op next ih =>
    have moved := op.forward_perform.position_le ⟨.nothing, c⟩
    have kept := op.forward_perform.limit_eq ⟨.nothing, c⟩
    cases performed : op.perform ⟨.nothing, c⟩ with
    | ok _ s =>
      rw [stateAfter_of_ok performed] at moved kept
      obtain ⟨ascending, bounds⟩ := ih s.value s.cursor
      rw [run_of_ok performed]
      refine ⟨List.pairwise_cons.2 ⟨fun p hp => (bounds p hp).1, ascending⟩, fun p hp => ?_⟩
      rcases List.mem_cons.1 hp with rfl | hp
      · exact ⟨moved, kept ▸ Nat.le_add_right _ _⟩
      · exact ⟨Nat.le_trans moved (bounds p hp).1, kept ▸ (bounds p hp).2⟩
    | error e s =>
      rw [stateAfter_of_error performed] at moved kept
      rw [run_of_error performed]
      refine ⟨List.pairwise_pair.2 (Nat.le_refl _), fun p hp => ?_⟩
      obtain rfl : p = s.cursor.position := by simpa [Trace.positions] using hp
      exact ⟨moved, kept ▸ Nat.le_add_right _ _⟩

theorem position_run (program : ReadProgram) (c : Cursor) :
    c.position ≤ (program.run c).position ∧ (program.run c).position ≤ c.limit :=
  (program.positions_run c).2 _ (List.mem_append_right _ (List.mem_singleton_self _))

/-- With more input a program does the same, unless that makes up for a shortage. -/
theorem run_feed (program : ReadProgram) {more : List UInt8} {t : Trace}
    (h : (program.run c).fed more.length = some t) : program.run (feed c more) = t := by
  induction program generalizing c t with
  | done =>
    cases h
    rfl
  | step op next ih =>
    cases performed : op.perform ⟨.nothing, c⟩ with
    | ok _ s =>
      have again := op.forward_perform.ok performed more
      rw [run_of_ok performed, Trace.fed_behind] at h
      obtain ⟨t, later, rfl⟩ := Option.map_eq_some_iff.1 h
      rw [run_of_ok (c := feed c more) again]
      exact congrArg (Trace.behind · _) (ih s.value later)
    | error e s =>
      rw [run_of_error performed] at h
      obtain ⟨e', left, rfl⟩ := Option.map_eq_some_iff.1 h
      exact run_of_error (c := feed c more) (s := feed s more)
        (op.forward_perform.error performed left)

/-- A program that runs to its end within a part of its input does the same on that part. -/
theorem run_of_feed (program : ReadProgram) (more : List UInt8)
    (h : (program.run (feed c more)).fault = none)
    (within : (program.run (feed c more)).position ≤ c.limit) :
    program.run c = program.run (feed c more) := by
  induction program generalizing c with
  | done => rfl
  | step op next ih =>
    cases performed : op.perform ⟨.nothing, feed c more⟩ with
    | ok _ s =>
      rw [run_of_ok performed] at h within ⊢
      -- the whole program stays within the part, so its first operation does
      have first : s.cursor.position ≤ c.limit := Nat.le_trans (position_run _ _).1 within
      obtain ⟨d, alone, rfl⟩ := op.forward_perform.ok_of_feed (c := ⟨.nothing, c⟩) performed first
      have kept := op.forward_perform.limit_eq_of_ok alone
      rw [run_of_ok alone]
      exact congrArg (Trace.behind · _) (ih d.value h (kept ▸ within))
    | error e s =>
      rw [run_of_error performed] at h
      exact nomatch h

theorem fed_zero_of_run (program : ReadProgram) {e : Fault} (h : (program.run c).fault = some e) :
    e.fed 0 = some e := by
  induction program generalizing c with
  | done => exact nomatch h
  | step op next ih =>
    cases performed : op.perform ⟨.nothing, c⟩ with
    | ok _ s =>
      rw [run_of_ok performed] at h
      exact ih s.value h
    | error e₁ s =>
      rw [run_of_error performed] at h
      cases h
      exact op.forward_perform.genuine performed

/-- Once a shortage is made up for, the operation that was short gets beyond it, and those before it
do as they did. -/
theorem run_feed_of_le (program : ReadProgram) {n : Nat}
    (h : (program.run c).fault = some (.unexpectedEnd n)) {more : List UInt8}
    (enough : n ≤ more.length) :
    ∃ before short short' after, (program.run c).steps = before ++ [short] ∧
      (program.run (feed c more)).steps = before ++ short' :: after ∧
      c.limit + n ≤ short'.position := by
  induction program generalizing c with
  | done => exact nomatch h
  | step op next ih =>
    cases performed : op.perform ⟨.nothing, c⟩ with
    | ok _ s =>
      have again := op.forward_perform.ok performed more
      have kept := op.forward_perform.limit_eq_of_ok performed
      rw [run_of_ok performed] at h ⊢
      rw [run_of_ok (c := feed c more) again]
      obtain ⟨before, short, short', after, cut, whole, beyond⟩ := ih s.value h
      exact ⟨_ :: before, short, short', after, congrArg (_ :: ·) cut, congrArg (_ :: ·) whole,
        kept ▸ beyond⟩
    | error e s =>
      rw [run_of_error performed] at h ⊢
      cases h
      have beyond := op.forward_perform.overcomes performed enough
      cases again : op.perform ⟨.nothing, feed c more⟩ with
      | ok _ s' =>
        have after := stateAfter_of_ok again
        rw [run_of_ok again]
        exact ⟨[], _, _, _, rfl, rfl, after ▸ beyond⟩
      | error e' s' =>
        have after := stateAfter_of_error again
        rw [run_of_error again]
        exact ⟨[], _, _, _, rfl, rfl, after ▸ beyond⟩

/-- A program that runs to its end needs no more of its input than it read. -/
theorem run_take (program : ReadProgram) {bytes : List UInt8}
    (h : (program.run (.start bytes)).fault = none) :
    program.run (.start (bytes.take (program.run (.start bytes)).position)) =
      program.run (.start bytes) := by
  have last : (program.run (.start bytes)).position ≤ 0 + bytes.length := (position_run _ _).2
  rw [Nat.zero_add] at last
  generalize stop : (program.run (.start bytes)).position = p at last ⊢
  have whole : feed (.start (bytes.take p)) (bytes.drop p) = Cursor.start bytes :=
    congrArg (Cursor.mk 0) (List.take_append_drop p bytes)
  have within : (Cursor.start (bytes.take p)).limit = p :=
    (Nat.zero_add _).trans (List.length_take_of_le last)
  have runs : program.run (feed (.start (bytes.take p)) (bytes.drop p)) =
      program.run (.start bytes) := by
    rw [whole]
  have part := program.run_of_feed (c := .start (bytes.take p)) (bytes.drop p)
  rw [runs, within] at part
  exact part h (Nat.le_of_eq stop)

/-- A program moves forward within its input. If it runs to its end, so it does on any input that
agrees up to there; a fault other than a shortage remains whatever follows. A shortage is of at
least one byte: as long as less than that follows, it is what is still missing, and then the
operation that was short gets beyond it. -/
theorem run_other_input (program : ReadProgram) (bytes : List UInt8) :
    let trace := program.run (.start bytes)
    ((0 :: trace.positions).Pairwise (· ≤ ·) ∧ ∀ p ∈ trace.positions, p ≤ bytes.length) ∧
    (trace.fault = none → ∀ other, bytes.take trace.position <+: other →
      program.run (.start other) = trace) ∧
    (∀ e, trace.fault = some e → (∀ n, e ≠ .unexpectedEnd n) →
      ∀ more, program.run (.start (bytes ++ more)) = trace) ∧
    ∀ n, trace.fault = some (.unexpectedEnd n) → 1 ≤ n ∧
      (∀ more, more.length < n → program.run (.start (bytes ++ more)) =
        { trace with fault := some (.unexpectedEnd (n - more.length)) }) ∧
      ∀ more, n ≤ more.length → ∃ before short short' after,
        trace.steps = before ++ [short] ∧
        (program.run (.start (bytes ++ more))).steps = before ++ short' :: after ∧
        bytes.length + n ≤ short'.position := by
  intro trace
  have limit : (Cursor.start bytes).limit = bytes.length := Nat.zero_add _
  obtain ⟨ascending, bounds⟩ := program.positions_run (.start bytes)
  rw [limit] at bounds
  refine ⟨⟨List.pairwise_cons.2 ⟨fun _ _ => Nat.zero_le _, ascending⟩, fun p hp => (bounds p hp).2⟩,
    fun done => ?_, fun e failed lasting more => ?_, fun n short => ?_⟩
  · rintro _ ⟨more, rfl⟩
    have part : program.run (.start (bytes.take trace.position)) = trace := program.run_take done
    refine program.run_feed (c := .start _) ?_
    rw [part]
    exact Trace.fed_of_none done
  · have kept : e.fed more.length = some e := by
      cases e with
      | unexpectedEnd n => exact absurd rfl (lasting n)
      | _ => rfl
    have same : { trace with fault := some e } = trace := by rw [← failed]
    rw [← same]
    exact program.run_feed (c := .start _) (Trace.fed_of_some failed kept)
  · obtain ⟨missing, -⟩ := Fault.fed_unexpectedEnd.1 (program.fed_zero_of_run short)
    refine ⟨missing, fun more few => ?_, fun more enough => ?_⟩
    · have left := Fault.fed_unexpectedEnd.2 ⟨few, rfl⟩
      exact program.run_feed (c := .start _) (Trace.fed_of_some short left)
    · exact limit ▸ program.run_feed_of_le short enough

/-- Reads a value behind the id of its type. -/
def typedValue : ReadProgram :=
  .step (.create Entity.types) fun
    | .value start => .step (.value start) fun _ => .done
    | _ => .done

/-- A point with input behind it, a type that is not known, and a point whose last byte is
missing. -/
theorem run_other_input_typedValue :
    let point : List UInt8 := [0, 10, 0, 1, 0, 2]
    let unknown : List UInt8 := [0, 99, 0, 1]
    typedValue.run (.start point) = typedValue.run (.start (point ++ [7])) ∧
    typedValue.run (.start (unknown ++ [7])) = typedValue.run (.start unknown) ∧
    (typedValue.run (.start (point.take 5 ++ []))).fault = some (.unexpectedEnd 1) ∧
    ∃ before short short' after,
      (typedValue.run (.start (point.take 5))).steps = before ++ [short] ∧
      (typedValue.run (.start (point.take 5 ++ [2]))).steps = before ++ short' :: after ∧
      6 ≤ short'.position := by
  intro point unknown
  obtain ⟨-, ofPoint, -, -⟩ := run_other_input typedValue (point ++ [7])
  obtain ⟨-, -, ofUnknown, -⟩ := run_other_input typedValue unknown
  obtain ⟨-, -, -, ofCut⟩ := run_other_input typedValue (point.take 5)
  obtain ⟨-, few, enough⟩ := ofCut 1 (by decide +kernel)
  refine ⟨ofPoint (by decide +kernel) point (by decide +kernel), ?_, ?_, ?_⟩
  · exact ofUnknown (.unknownTypeId 99) (by decide +kernel) (fun _ => nofun) [7]
  · rw [few [] (by decide +kernel)]
    rfl
  · exact enough [2] (by decide +kernel)

end ReadProgram

end WireCodec.Game
