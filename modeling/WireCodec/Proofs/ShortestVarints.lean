import WireCodec.Proofs.ItemRoundTrip
import WireCodec.Proofs.VarintWords

/-!
# Shortest spellings of integers

A number has as many base-128 digits as it takes powers of 128 to exceed it
(`length_groups_le_iff`), and an integer of variable length is written with just these: no shorter
bytes are read as the integer. A negative integer has the top bit of its type set, so it takes as
many digits as cover the width.
-/

namespace WireCodec

/-! ## The digits of a number -/

theorem ofGroups_lt (xs : List UInt8) : ofGroups xs < 128 ^ xs.length := by
  induction xs with
  | nil => exact Nat.one_pos
  | cons b xs ih =>
    have digit : b.toNat % 128 < 128 := Nat.mod_lt _ (by decide)
    rw [ofGroups, List.length_cons, Nat.pow_succ]
    omega

theorem isSpelling_groups (n : Nat) : IsSpelling (groups n) := by
  induction n using groups.induct with
  | case1 n small =>
    rw [groups_of_lt small]
    exact .last (lastGroup_lt small)
  | case2 n large ih =>
    rw [groups_of_le (Nat.not_lt.1 large)]
    exact .more (UInt8.not_lt.1 (continuedGroup_not_lt n)) ih

theorem length_groups_pos (n : Nat) : 0 < (groups n).length := (isSpelling_groups n).length_pos

/-- A number has no more digits than a power of 128 that exceeds it. -/
theorem length_groups_le_iff {n count : Nat} (pos : 0 < count) :
    (groups n).length ≤ count ↔ n < 128 ^ count := by
  induction n using groups.induct generalizing count with
  | case1 n small =>
    rw [groups_of_lt small, List.length_singleton]
    have : 128 ^ 1 ≤ 128 ^ count := Nat.pow_le_pow_right (by decide) pos
    omega
  | case2 n large ih =>
    obtain ⟨count, rfl⟩ := Nat.exists_eq_succ_of_ne_zero (Nat.ne_of_gt pos)
    rw [groups_of_le (Nat.not_lt.1 large), List.length_cons, Nat.succ_le_succ_iff]
    rcases Nat.eq_zero_or_pos count with rfl | pos'
    · have := length_groups_pos (n / 128)
      omega
    · rw [ih pos', Nat.pow_succ, Nat.div_lt_iff_lt_mul (by decide)]

/-- All bytes but the last carry the continuation bit; the last one does not, and it is zero only if
it stands alone. -/
def IsShortSpelling (xs : List UInt8) : Prop :=
  ∃ front last, xs = front ++ [last] ∧ (∀ b ∈ front, b &&& 0x80 ≠ 0) ∧ last &&& 0x80 = 0 ∧
    (last = 0 → front = [])

theorem exists_groups_eq_append (n : Nat) :
    ∃ front last, groups n = front ++ [last] ∧ (∀ b ∈ front, b &&& 0x80 ≠ 0) ∧
      last &&& 0x80 = 0 ∧ (last = 0 → n = 0) := by
  induction n using groups.induct with
  | case1 n small =>
    refine ⟨[], .ofNat n, groups_of_lt small, fun _ hb => absurd hb List.not_mem_nil,
      (and_continuation_eq_zero_iff _).2 (lastGroup_lt small), fun zero => ?_⟩
    rw [← toNat_lastGroup small, zero]
    rfl
  | case2 n large ih =>
    obtain ⟨front, last, split, continued, ends, nonzero⟩ := ih
    refine ⟨.ofNat (n % 128 + 128) :: front, last, ?_, ?_, ends, fun zero => ?_⟩
    · rw [groups_of_le (Nat.not_lt.1 large), split, List.cons_append]
    · exact List.forall_mem_cons.2 ⟨fun lacks =>
        continuedGroup_not_lt n ((and_continuation_eq_zero_iff _).1 lacks), continued⟩
    · have := nonzero zero
      omega

theorem isShortSpelling_groups (n : Nat) : IsShortSpelling (groups n) := by
  obtain ⟨front, last, split, continued, ends, nonzero⟩ := exists_groups_eq_append n
  refine ⟨front, last, split, continued, ends, fun zero => ?_⟩
  have alone : (groups n).length = 1 := by rw [nonzero zero, groups_of_lt (by decide)]; rfl
  rw [split, List.length_append, List.length_singleton] at alone
  exact List.eq_nil_of_length_eq_zero (Nat.succ.inj alone)

/-! ## Writing from a word -/

/-- The turns of a loop that writes a word: each writes the lowest digit and shifts it out, with the
continuation bit if anything is left. The loop ends when nothing is. -/
inductive WritesWord : UInt64 → List UInt8 → Prop
  | last {v : UInt64} (none : v >>> 7 = 0) : WritesWord v [(v &&& 0x7F).toUInt8]
  | more {v : UInt64} {xs : List UInt8} (left : v >>> 7 ≠ 0) (turns : WritesWord (v >>> 7) xs) :
    WritesWord v (((v &&& 0x7F).toUInt8 ||| 0x80) :: xs)

theorem toNat_shiftRight_digit (v : UInt64) : (v >>> 7).toNat = v.toNat / 128 := by
  rw [UInt64.toNat_shiftRight]
  exact Nat.shiftRight_eq_div_pow v.toNat 7

theorem shiftRight_digit_eq_zero_iff (v : UInt64) : v >>> 7 = 0 ↔ v.toNat < 128 := by
  rw [← UInt64.toNat_inj, toNat_shiftRight_digit]
  show v.toNat / 128 = 0 ↔ _
  omega

theorem toNat_lowDigit (v : UInt64) : (v &&& 0x7F).toUInt8.toNat = v.toNat % 128 := by
  have low : (v &&& 0x7F).toNat = v.toNat % 128 := by
    rw [UInt64.toNat_and]
    exact Nat.and_two_pow_sub_one_eq_mod v.toNat 7
  rw [UInt64.toNat_toUInt8, low]
  omega

theorem toNat_or_continuation {b : UInt8} (h : b.toNat < 128) :
    (b ||| 0x80).toNat = b.toNat + 128 := by
  rw [UInt8.toNat_or, Nat.or_comm, Nat.add_comm]
  exact (Nat.two_pow_add_eq_or_of_lt (i := 7) h 1).symm

/-- The loop ends, and what it has written by then are the digits of the word. -/
theorem writesWord_groups (v : UInt64) : WritesWord v (groups v.toNat) := by
  induction n : v.toNat using groups.induct generalizing v with
  | case1 n small =>
    subst n
    have digit : UInt8.ofNat v.toNat = (v &&& 0x7F).toUInt8 := by
      rw [← UInt8.toNat_inj, toNat_lastGroup small, toNat_lowDigit, Nat.mod_eq_of_lt small]
    rw [groups_of_lt small, digit]
    exact .last ((shiftRight_digit_eq_zero_iff v).2 small)
  | case2 n large ih =>
    subst n
    have digit : UInt8.ofNat (v.toNat % 128 + 128) = (v &&& 0x7F).toUInt8 ||| 0x80 := by
      have low := toNat_lowDigit v
      rw [← UInt8.toNat_inj, toNat_continuedGroup, toNat_or_continuation (by omega), low]
    rw [groups_of_le (Nat.not_lt.1 large), digit]
    exact .more (fun none => large ((shiftRight_digit_eq_zero_iff v).1 none))
      (ih (v >>> 7) (toNat_shiftRight_digit v))

/-! ## Integers of variable length -/

/-- The word from which an integer of variable length is written: its bits, extended by zeros. -/
def Item.word : Item → UInt64
  | varShort v => v.toUInt16.toUInt64
  | varUnsignedShort v => v.toUInt64
  | varInt v => v.toUInt32.toUInt64
  | varUnsignedInt v => v.toUInt64
  | varLong v => v.toUInt64
  | varUnsignedLong v => v
  | _ => 0

namespace VarKind

variable {k : VarKind} {i : Item} {n : Nat}

theorem shape_injective : Function.Injective shape := by
  intro k k' same
  cases k <;> cases k' <;> first | rfl | exact nomatch same

/-- An item of variable length is made of the bits of its type. -/
theorem exists_eq_item (h : i.shape = k.shape) : ∃ n, n < 2 ^ k.width ∧ i = k.item n := by
  cases i with
  | varShort v =>
    obtain rfl : k = .short := shape_injective h.symm
    exact ⟨v.toUInt16.toNat, v.toUInt16.toNat_lt,
      congrArg (Item.varShort ⟨·⟩) UInt16.ofNat_toNat.symm⟩
  | varUnsignedShort v =>
    obtain rfl : k = .unsignedShort := shape_injective h.symm
    exact ⟨v.toNat, v.toNat_lt, congrArg Item.varUnsignedShort UInt16.ofNat_toNat.symm⟩
  | varInt v =>
    obtain rfl : k = .int := shape_injective h.symm
    exact ⟨v.toUInt32.toNat, v.toUInt32.toNat_lt,
      congrArg (Item.varInt ⟨·⟩) UInt32.ofNat_toNat.symm⟩
  | varUnsignedInt v =>
    obtain rfl : k = .unsignedInt := shape_injective h.symm
    exact ⟨v.toNat, v.toNat_lt, congrArg Item.varUnsignedInt UInt32.ofNat_toNat.symm⟩
  | varLong v =>
    obtain rfl : k = .long := shape_injective h.symm
    exact ⟨v.toUInt64.toNat, v.toUInt64.toNat_lt,
      congrArg (Item.varLong ⟨·⟩) UInt64.ofNat_toNat.symm⟩
  | varUnsignedLong v =>
    obtain rfl : k = .unsignedLong := shape_injective h.symm
    exact ⟨v.toNat, v.toNat_lt, congrArg Item.varUnsignedLong UInt64.ofNat_toNat.symm⟩
  | _ => cases k <;> exact nomatch h

/-- A number that leaves the top bit of the type clear stands for itself. -/
theorem wrap_of_lt (below : n < 2 ^ (k.width - 1)) : k.wrap n = n := by
  have signed : (n : Int) * 2 < ↑(2 ^ k.width : Nat) := by
    have : 2 ^ k.width = 2 ^ (k.width - 1) * 2 := by cases k <;> rfl
    omega
  have bmod : (n : Int).bmod (2 ^ k.width) = n :=
    Int.bmod_eq_of_le_mul_two (by omega) signed
  have emod : (n : Int) % 2 ^ k.width = n :=
    Int.emod_eq_of_lt (by omega) (by push_cast at signed; omega)
  cases k with
  | short | int | long => exact bmod
  | unsignedShort | unsignedInt | unsignedLong => exact emod

section Bits

variable (fits : n < 2 ^ k.width)

include fits

theorem toNat_word_item : (k.item n).word.toNat = n := by
  cases k <;> simp only [width] at fits <;> simp [item, Item.word] <;> omega

theorem spell_item : (k.item n).spell = groups n := by
  have word : (k.item n).spell = groups (k.item n).word.toNat := by cases k <;> rfl
  rw [word, toNat_word_item fits]

end Bits

/-- Whatever is read is spelled with no more digits than cover the width. -/
theorem exists_isSpelling_of_read {c c' : Cursor} (run : k.shape.read c = .ok i c') :
    ∃ xs, IsSpelling xs ∧ c.Passes xs c' ∧ xs.length ≤ k.digits ∧ i = k.item (ofGroups xs) := by
  rcases exists_isSpelling_or c.rest with ⟨xs, rest, spelling, split⟩ | goesOn
  · have passes : c.Passes xs ⟨c.position + xs.length, rest⟩ := ⟨split, rfl⟩
    by_cases few : xs.length ≤ k.digits
    · cases (read_of_isSpelling spelling passes few).symm.trans run
      exact ⟨xs, spelling, passes, few, rfl⟩
    · exact nomatch (read_of_long spelling passes (Nat.lt_of_not_le few)).symm.trans run
  · obtain ⟨e, d, failed⟩ := exists_error_of_goesOn (k := k) goesOn
    exact nomatch failed.symm.trans run

theorem pow_digits_le (k : VarKind) : 128 ^ (k.digits - 1) ≤ 2 ^ (k.width - 1) := by
  cases k <;> decide

theorem pow_width_le (k : VarKind) : 2 ^ k.width ≤ 128 ^ k.digits := by
  cases k <;> decide

theorem length_groups_le_digits (fits : n < 2 ^ k.width) : (groups n).length ≤ k.digits :=
  (length_groups_le_iff (by cases k <;> decide)).2 (Nat.lt_of_lt_of_le fits k.pow_width_le)

/-- No bytes are read as an integer that are fewer than its digits. -/
theorem length_groups_le_of_read (fits : n < 2 ^ k.width) {c c' : Cursor} {ys : List UInt8}
    (passes : c.Passes ys c') (run : k.shape.read c = .ok (k.item n) c') :
    (groups n).length ≤ ys.length := by
  obtain ⟨xs, spelling, passes', few, same⟩ := exists_isSpelling_of_read run
  have length : xs.length = ys.length := by
    have := passes.2.symm.trans passes'.2
    omega
  rw [← length]
  by_cases full : xs.length = k.digits
  · rw [full]
    exact length_groups_le_digits fits
  · -- with fewer digits than cover the width nothing is cut off
    have below : 128 ^ xs.length ≤ 128 ^ (k.digits - 1) :=
      Nat.pow_le_pow_right (by decide) (by omega)
    have fits' : ofGroups xs < 2 ^ k.width := by
      calc ofGroups xs < 128 ^ xs.length := ofGroups_lt xs
        _ ≤ 2 ^ (k.width - 1) := below.trans k.pow_digits_le
        _ ≤ 2 ^ k.width := Nat.pow_le_pow_right (by decide) (Nat.sub_le _ _)
    have number : n = ofGroups xs := by
      rw [← toNat_word_item fits, same, toNat_word_item fits']
    rw [number]
    exact (length_groups_le_iff spelling.length_pos).2 (ofGroups_lt xs)

end VarKind

/-- An integer of variable length is written, from its bits as a word, with at least one byte and no
more than it takes to cover the width; all but the last have the continuation bit, and the last is
zero only if it is alone. The integer is read back from these bytes and from none that are fewer. A
negative one takes as many bytes as cover the width. -/
theorem shortest_write {k : VarKind} {i : Item} (h : i.shape = k.shape) :
    ∃ xs, Emits i.write xs ∧ WritesWord i.word xs ∧ 1 ≤ xs.length ∧ xs.length ≤ k.digits ∧
      IsShortSpelling xs ∧ Reads k.shape.read xs i ∧
      (∀ c ys c', c.Passes ys c' → k.shape.read c = .ok i c' → xs.length ≤ ys.length) ∧
      ∀ z, i.integer? = some z → z < 0 → xs.length = k.digits := by
  obtain ⟨n, fits, rfl⟩ := VarKind.exists_eq_item h
  have admitted : (k.item n).refusal? = none := by cases k <;> rfl
  have written := Item.emits_write admitted
  have read := Item.reads_shape admitted
  have word := writesWord_groups (k.item n).word
  rw [VarKind.spell_item fits] at written read
  rw [VarKind.toNat_word_item fits] at word
  have few := VarKind.length_groups_le_digits fits
  refine ⟨groups n, written, word, length_groups_pos n, few, isShortSpelling_groups n, h ▸ read,
    fun c ys c' passes run => VarKind.length_groups_le_of_read fits passes run,
    fun z value negative => Nat.le_antisymm few ?_⟩
  rw [VarKind.integer?_item, Option.some.injEq] at value
  subst value
  -- a number of fewer digits leaves the top bit clear
  refine Nat.le_of_not_lt fun fewer => ?_
  have many : 0 < k.digits - 1 := by cases k <;> decide
  have below := (length_groups_le_iff many).1 (Nat.le_sub_one_of_lt fewer)
  have itself := VarKind.wrap_of_lt (below.trans_le k.pow_digits_le)
  omega

/-- The number `-300` takes three bytes. -/
theorem shortest_write_negative :
    ∃ xs, Emits (Item.varShort (-300)).write xs ∧ xs.length = 3 ∧
      ∀ c ys c', c.Passes ys c' →
        VarKind.short.shape.read c = .ok (.varShort (-300)) c' → 3 ≤ ys.length := by
  obtain ⟨xs, written, -, -, -, -, -, least, negative⟩ :=
    shortest_write (k := .short) (i := .varShort (-300)) rfl
  have all : xs.length = 3 := negative (-300) (by decide) (by decide)
  rw [all] at least
  exact ⟨xs, written, all, least⟩

end WireCodec
