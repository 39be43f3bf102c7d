import WireCodec.Proofs.Transport
import WireCodec.Wire.Item

/-!
# Reading integers of variable length

The bytes up to the first one without the continuation bit spell a number. It is read if it has no
more digits than it takes to cover the width of its type, and refused otherwise. The last digit that
is admitted may hold bits beyond the width, so a number can have as few digits and not fit the type:
it is read all the same, and the bits beyond the width are lost. Reading loses nothing exactly where
no such number is spelled (`VarKind.Lossless`).
-/

namespace WireCodec

/-! ## Spellings in base 128 -/

/-- The bytes spell one number: all but the last carry the continuation bit. -/
inductive IsSpelling : List UInt8 → Prop
  | last {b : UInt8} (ends : b < 128) : IsSpelling [b]
  | more {b : UInt8} {xs : List UInt8} (goesOn : 128 ≤ b) (rest : IsSpelling xs) :
    IsSpelling (b :: xs)

/-- The number whose base-128 digits the bytes hold, the low digit first. -/
def ofGroups : List UInt8 → Nat
  | [] => 0
  | b :: xs => b.toNat % 128 + 128 * ofGroups xs

theorem IsSpelling.length_pos {xs : List UInt8} (h : IsSpelling xs) : 0 < xs.length := by
  cases h <;> exact Nat.succ_pos _

/-- Every part of a spelling goes on. -/
theorem IsSpelling.goesOn_take {xs : List UInt8} (h : IsSpelling xs) {n : Nat}
    (part : n < xs.length) : ∀ b ∈ xs.take n, 128 ≤ b := by
  induction h generalizing n with
  | last =>
    obtain rfl : n = 0 := by simpa using part
    exact nofun
  | more goesOn _ ih =>
    cases n with
    | zero => exact nofun
    | succ n => exact List.forall_mem_cons.2 ⟨goesOn, ih (Nat.lt_of_succ_lt_succ part)⟩

/-- Either a number is spelled at the start of the bytes or the bytes go on to their end. -/
theorem exists_isSpelling_or (bytes : List UInt8) :
    (∃ xs rest, IsSpelling xs ∧ bytes = xs ++ rest) ∨ ∀ b ∈ bytes, 128 ≤ b := by
  induction bytes with
  | nil => exact .inr nofun
  | cons b bytes ih =>
    by_cases ends : b < 128
    · exact .inl ⟨[b], bytes, .last ends, rfl⟩
    · have goesOn := UInt8.not_lt.1 ends
      rcases ih with ⟨xs, rest, spelling, rfl⟩ | all
      · exact .inl ⟨b :: xs, rest, .more goesOn spelling, rfl⟩
      · exact .inr (List.forall_mem_cons.2 ⟨goesOn, all⟩)

/-! ## Reading digits -/

section Digits

variable {width shift : Nat}

theorem shiftLeft_digit (value digit n shift : Nat) :
    value + digit <<< shift + n <<< (shift + 7) = value + (digit + 128 * n) <<< shift := by
  have weight : 1 <<< (shift + 7) = 128 * 1 <<< shift := by
    rw [Nat.shiftLeft_add, Nat.shiftLeft_eq _ 7, Nat.mul_comm]
  have shifted (m s : Nat) : m <<< s = m * 1 <<< s := by
    rw [Nat.shiftLeft_eq, Nat.one_shiftLeft]
  rw [shifted digit, shifted n, shifted (digit + 128 * n), weight]
  grind

/-- A number is read whose digits start within the width. -/
theorem readGroups_of_isSpelling {xs : List UInt8} (h : IsSpelling xs)
    (room : shift + 7 * (xs.length - 1) < width) (value p : Nat) (rest : List UInt8) :
    readGroups width shift value (xs ++ rest) p =
      .ok (value + ofGroups xs <<< shift) ⟨p + xs.length, rest⟩ := by
  induction h generalizing shift value p with
  | last ends =>
    have open' : ¬ width ≤ shift := Nat.not_le.2 room
    rw [List.singleton_append, readGroups, if_neg open', if_pos ends]
    rfl
  | @more b xs goesOn spelling ih =>
    have := spelling.length_pos
    simp only [List.length_cons, Nat.add_sub_cancel] at room
    have room' : shift + 7 + 7 * (xs.length - 1) < width := by omega
    have open' : ¬ width ≤ shift := by omega
    rw [List.cons_append, readGroups, if_neg open', if_neg (UInt8.not_lt.2 goesOn), ih room',
      shiftLeft_digit, List.length_cons, Nat.add_assoc, Nat.add_comm 1]
    rfl

/-- Digits that cover the width must not go on. -/
theorem readGroups_of_goesOn {n : Nat} {bytes : List UInt8} (goesOn : ∀ b ∈ bytes.take n, 128 ≤ b)
    (more : n < bytes.length) (covers : width ≤ shift + 7 * n) (tight : shift + 7 * n < width + 7)
    (value p : Nat) :
    readGroups width shift value bytes p =
      .error (.varIntTooLong width) ⟨p + (n + 1), bytes.drop (n + 1)⟩ := by
  induction n generalizing bytes shift value p with
  | zero =>
    obtain ⟨b, bytes, rfl⟩ := List.exists_cons_of_length_pos more
    rw [readGroups, if_pos (show width ≤ shift from covers)]
    rfl
  | succ n ih =>
    obtain ⟨b, bytes, rfl⟩ := List.exists_cons_of_length_pos (Nat.zero_lt_of_lt more)
    obtain ⟨first, others⟩ := List.forall_mem_cons.1 goesOn
    have open' : ¬ width ≤ shift := by omega
    rw [readGroups, if_neg open', if_neg (UInt8.not_lt.2 first),
      ih others (Nat.lt_of_succ_lt_succ more) (by omega) (by omega), List.drop_succ_cons]
    congr 2
    omega

/-- Digits that go on to the end of the input lack a byte. -/
theorem readGroups_of_short {bytes : List UInt8} (goesOn : ∀ b ∈ bytes, 128 ≤ b)
    (short : shift + 7 * bytes.length < width + 7) (value p : Nat) :
    readGroups width shift value bytes p =
      .error (.unexpectedEnd 1) ⟨p + bytes.length, []⟩ := by
  induction bytes generalizing shift value p with
  | nil => rfl
  | cons b bytes ih =>
    obtain ⟨first, others⟩ := List.forall_mem_cons.1 goesOn
    rw [List.length_cons] at short
    have open' : ¬ width ≤ shift := by omega
    rw [readGroups, if_neg open', if_neg (UInt8.not_lt.2 first), ih others (by omega),
      List.length_cons]
    congr 2
    omega

end Digits

/-! ## Integer types -/

/-- The integer types that travel with variable length. -/
inductive VarKind
  | short
  | unsignedShort
  | int
  | unsignedInt
  | long
  | unsignedLong
  deriving DecidableEq, Repr

namespace VarKind

def shape : VarKind → ItemShape
  | short => .varShort
  | unsignedShort => .varUnsignedShort
  | int => .varInt
  | unsignedInt => .varUnsignedInt
  | long => .varLong
  | unsignedLong => .varUnsignedLong

/-- The bits of the type. -/
def width : VarKind → Nat
  | short | unsignedShort => 16
  | int | unsignedInt => 32
  | long | unsignedLong => 64

/-- The numbers below this one fit the type. -/
def size : VarKind → Nat
  | short | unsignedShort => UInt16.size
  | int | unsignedInt => UInt32.size
  | long | unsignedLong => UInt64.size

/-- The integer of the type whose bits are the low bits of a number. -/
def item : VarKind → Nat → Item
  | short, n => .varShort (.ofNat n)
  | unsignedShort, n => .varUnsignedShort (.ofNat n)
  | int, n => .varInt (.ofNat n)
  | unsignedInt, n => .varUnsignedInt (.ofNat n)
  | long, n => .varLong (.ofNat n)
  | unsignedLong, n => .varUnsignedLong (.ofNat n)

/-- How many base-128 digits it takes to cover the width. -/
def digits (k : VarKind) : Nat := (k.width + 6) / 7

theorem read_eq (k : VarKind) : k.shape.read = k.item <$> readVar k.width := by
  cases k <;> simp only [shape, ItemShape.read, readVarShort, readVarUnsignedShort, readVarInt,
    readVarUnsignedInt, readVarLong, readVarUnsignedLong, Functor.map_map] <;> rfl

/-- Reading at the cursor loses nothing: whatever is read is what a spelling of a number that fits
the type stands for, and a spelling of a number that does not fit is refused. -/
structure Lossless (k : VarKind) (c : Cursor) : Prop where
  fits : ∀ {i c'}, k.shape.read c = .ok i c' →
    ∃ xs, IsSpelling xs ∧ c.Passes xs c' ∧ ofGroups xs < k.size ∧ i = k.item (ofGroups xs)
  refuses : ∀ {xs c'}, IsSpelling xs → c.Passes xs c' → k.size ≤ ofGroups xs →
    ∃ d, k.shape.read c = .error (.varIntTooLong k.width) d

section Reading

variable {k : VarKind} {c c' : Cursor} {xs : List UInt8}

theorem read_of_readVar {n : Nat} (run : readVar k.width c = .ok n c') :
    k.shape.read c = .ok (k.item n) c' := by
  rw [read_eq]
  show EStateM.map _ _ _ = _
  rw [EStateM.map, run]

theorem read_of_readVar_error {e : Fault} (run : readVar k.width c = .error e c') :
    k.shape.read c = .error e c' := by
  rw [read_eq]
  show EStateM.map _ _ _ = _
  rw [EStateM.map, run]

theorem digits_covers (k : VarKind) : k.width ≤ 7 * k.digits ∧ 7 * k.digits < k.width + 7 := by
  unfold digits
  omega

/-- A spelling that has no more digits than it takes to cover the width is read. -/
theorem read_of_isSpelling (h : IsSpelling xs) (passes : c.Passes xs c')
    (few : xs.length ≤ k.digits) : k.shape.read c = .ok (k.item (ofGroups xs)) c' := by
  obtain ⟨p, bytes⟩ := c
  obtain ⟨p', rest⟩ := c'
  obtain ⟨rfl, rfl⟩ : bytes = xs ++ rest ∧ p' = p + xs.length := passes
  have := h.length_pos
  have := k.digits_covers
  have room : 0 + 7 * (xs.length - 1) < k.width := by omega
  have run := readGroups_of_isSpelling h room 0 p rest
  rw [Nat.zero_add, Nat.shiftLeft_zero] at run
  exact read_of_readVar run

/-- Bytes that go on after the digits that cover the width are refused, one byte later. -/
theorem read_of_goesOn (goesOn : ∀ b ∈ c.rest.take k.digits, 128 ≤ b)
    (more : k.digits < c.remaining) :
    k.shape.read c = .error (.varIntTooLong k.width) (c.advance (k.digits + 1)) := by
  have := k.digits_covers
  exact read_of_readVar_error
    (readGroups_of_goesOn goesOn more (by omega) (by omega) 0 c.position)

/-- Bytes that go on to the end of the input lack one, unless they cover the width before. -/
theorem read_of_short (goesOn : ∀ b ∈ c.rest, 128 ≤ b) (short : c.remaining ≤ k.digits) :
    k.shape.read c = .error (.unexpectedEnd 1) (c.advance c.remaining) := by
  have := k.digits_covers
  have few : 0 + 7 * c.rest.length < k.width + 7 := by
    simp only [Cursor.remaining] at short
    omega
  have passed : c.advance c.remaining = ⟨c.position + c.rest.length, []⟩ := by
    rw [Cursor.advance, Cursor.remaining, List.drop_length]
  rw [passed]
  exact read_of_readVar_error (readGroups_of_short goesOn few 0 c.position)

/-- Bytes that go on to the end of the input are not read. -/
theorem exists_error_of_goesOn (goesOn : ∀ b ∈ c.rest, 128 ≤ b) :
    ∃ e d, k.shape.read c = .error e d := by
  by_cases more : k.digits < c.remaining
  · exact ⟨_, _, read_of_goesOn (fun b hb => goesOn b (List.mem_of_mem_take hb)) more⟩
  · exact ⟨_, _, read_of_short goesOn (Nat.not_lt.1 more)⟩

/-- A spelling with more digits than it takes to cover the width is refused. -/
theorem read_of_long (h : IsSpelling xs) (passes : c.Passes xs c') (many : k.digits < xs.length) :
    k.shape.read c = .error (.varIntTooLong k.width) (c.advance (k.digits + 1)) := by
  obtain ⟨p, bytes⟩ := c
  obtain ⟨rfl, -⟩ : bytes = xs ++ c'.rest ∧ _ := passes
  refine read_of_goesOn ?_ ?_
  · show ∀ b ∈ (xs ++ c'.rest).take k.digits, 128 ≤ b
    rw [List.take_append_of_le_length (Nat.le_of_lt many)]
    exact h.goesOn_take many
  · simp only [Cursor.remaining, List.length_append]
    omega

end Reading

end VarKind

/-- Of a number that is spelled at the cursor, with no more digits than it takes to cover the width
of a type, the low bits are read; with more digits it is refused. So reading loses nothing exactly
if no number is spelled with few enough digits that does not fit the type. -/
theorem lossless_iff (k : VarKind) (c : Cursor) :
    (∀ xs c', IsSpelling xs → c.Passes xs c' → k.shape.read c =
      if xs.length ≤ k.digits then .ok (k.item (ofGroups xs)) c'
      else .error (.varIntTooLong k.width) (c.advance (k.digits + 1))) ∧
    (k.Lossless c ↔ ∀ xs c', IsSpelling xs → c.Passes xs c' → xs.length ≤ k.digits →
      ofGroups xs < k.size) := by
  refine ⟨fun xs c' h passes => ?_, fun lossless xs c' h passes few => ?_, fun fit => ?_⟩
  · split
    case isTrue few => exact VarKind.read_of_isSpelling h passes few
    case isFalse many => exact VarKind.read_of_long h passes (Nat.lt_of_not_le many)
  · refine Nat.lt_of_not_le fun large => ?_
    obtain ⟨d, refused⟩ := lossless.refuses h passes large
    exact nomatch refused.symm.trans (VarKind.read_of_isSpelling h passes few)
  · refine ⟨fun {i c'} run => ?_, fun {xs c'} h passes large => ?_⟩
    · rcases exists_isSpelling_or c.rest with ⟨xs, rest, h, split⟩ | goesOn
      · have passes : c.Passes xs ⟨c.position + xs.length, rest⟩ := ⟨split, rfl⟩
        by_cases few : xs.length ≤ k.digits
        · cases (VarKind.read_of_isSpelling h passes few).symm.trans run
          exact ⟨xs, h, passes, fit xs _ h passes few, rfl⟩
        · exact nomatch (VarKind.read_of_long h passes (Nat.lt_of_not_le few)).symm.trans run
      · obtain ⟨e, d, failed⟩ := VarKind.exists_error_of_goesOn (k := k) goesOn
        exact nomatch failed.symm.trans run
    · by_cases few : xs.length ≤ k.digits
      · exact absurd (fit xs c' h passes few) (Nat.not_lt.2 large)
      · exact ⟨_, VarKind.read_of_long h passes (Nat.lt_of_not_le few)⟩

/-- The number `300` is read from its digits. Those of `131071` do not fit sixteen bits and lose
some. -/
theorem lossless_iff_three_digits :
    VarKind.unsignedShort.shape.read (.start [0xAC, 0x02, 0x07]) =
      .ok (.varUnsignedShort 300) ⟨2, [0x07]⟩ ∧
    ¬ VarKind.unsignedShort.Lossless (.start [0xFF, 0xFF, 0x07]) := by
  have few : IsSpelling [0xAC, 0x02] := .more (by decide) (.last (by decide))
  have many : IsSpelling [0xFF, 0xFF, 0x07] :=
    .more (by decide) (.more (by decide) (.last (by decide)))
  refine ⟨?_, fun lossless => ?_⟩
  · exact (lossless_iff .unsignedShort (.start [0xAC, 0x02, 0x07])).1 _ ⟨2, [0x07]⟩ few ⟨rfl, rfl⟩
  · have fits := (lossless_iff .unsignedShort _).2.1 lossless _ ⟨3, []⟩ many ⟨rfl, rfl⟩ (by decide)
    exact absurd fits (by decide)

/-- The bytes `ff ff 07` spell `131071`, which does not fit sixteen bits, and are read. -/
theorem not_lossless : ¬ ∀ (k : VarKind) (c : Cursor), k.Lossless c := by
  intro lossless
  let c : Cursor := .start [0xFF, 0xFF, 0x07]
  have spelling : IsSpelling [0xFF, 0xFF, 0x07] :=
    .more (by decide) (.more (by decide) (.last (by decide)))
  have passes : c.Passes [0xFF, 0xFF, 0x07] ⟨3, []⟩ := ⟨rfl, rfl⟩
  have large : VarKind.unsignedShort.size ≤ ofGroups [0xFF, 0xFF, 0x07] := by decide
  obtain ⟨d, refused⟩ := (lossless .unsignedShort c).refuses spelling passes large
  have read := VarKind.read_of_isSpelling (k := .unsignedShort) spelling passes (by decide)
  exact nomatch refused.symm.trans read

end WireCodec
