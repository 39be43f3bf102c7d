import Mathlib.Algebra.BigOperators.Fin
import WireCodec.Proofs.VarintReads

/-!
# Variable-length integers in machine words

A reader has one 64-bit word for the digits of a number (`readWord`): it masks each digit, shifts it
to its place and ors it in. No digit is shifted by all 64 bits, and what the word holds in the end is
the number that the digits spell, modulo the size of the word.

What is read at a cursor depends only on where the first byte without the continuation bit stands
among the bytes that may hold digits (`VarKind.read_at_cursor`).
-/

namespace WireCodec

/-! ## Bytes and words -/

theorem and_continuation_eq_zero_iff (b : UInt8) : b &&& 0x80 = 0 ↔ b < 128 := by
  have each : ∀ n : Fin 256, n.val &&& 128 = 0 ↔ n.val < 128 := by decide +kernel
  rw [← UInt8.toNat_inj, UInt8.toNat_and, UInt8.lt_iff_toNat_lt]
  exact each ⟨b.toNat, b.toNat_lt⟩

theorem toUInt64_and_digit (b : UInt8) : (b &&& 0x7F).toUInt64 = .ofNat (b.toNat % 128) := by
  rw [← UInt64.toNat_inj, UInt8.toNat_toUInt64, UInt8.toNat_and, UInt64.toNat_ofNat',
    Nat.mod_eq_of_lt (by omega)]
  exact Nat.and_two_pow_sub_one_eq_mod b.toNat 7

/-- A digit that is shifted behind those already there adds to them. -/
theorem ofNat_or_shiftLeft {value digit shift : Nat} (below : value < 1 <<< shift)
    (small : shift < 64) :
    UInt64.ofNat value ||| UInt64.ofNat digit <<< UInt64.ofNat shift =
      UInt64.ofNat (value + digit <<< shift) := by
  have amount : (UInt64.ofNat shift).toNat % 64 = shift := by
    rw [UInt64.toNat_ofNat']
    omega
  have shifted : (digit % 2 ^ 64) <<< shift % 2 ^ 64 = digit <<< shift % 2 ^ 64 := by
    rw [Nat.shiftLeft_eq, Nat.shiftLeft_eq, Nat.mod_mul_mod]
  have apart : digit <<< shift + value = digit <<< shift ||| value :=
    Nat.shiftLeft_add_eq_or_of_lt (by rwa [Nat.one_shiftLeft] at below) digit
  rw [← UInt64.toNat_inj, UInt64.toNat_or, UInt64.toNat_shiftLeft, amount, UInt64.toNat_ofNat',
    UInt64.toNat_ofNat', UInt64.toNat_ofNat', shifted, ← Nat.or_mod_two_pow, Nat.or_comm, ← apart,
    Nat.add_comm]

theorem ofNat_mod_word {width : Nat} (narrow : width ≤ 64) (n : Nat) :
    BitVec.ofNat width (n % 2 ^ 64) = BitVec.ofNat width n := by
  have divides : 2 ^ width ∣ 2 ^ 64 := Nat.pow_dvd_pow 2 narrow
  rw [← BitVec.toNat_inj, BitVec.toNat_ofNat, BitVec.toNat_ofNat, Nat.mod_mod_of_dvd n divides]

/-- With its digit a value stays below the place of the next one. -/
theorem add_shiftLeft_lt {value digit shift : Nat} (below : value < 1 <<< shift)
    (small : digit < 128) : value + digit <<< shift < 1 <<< (shift + 7) := by
  rw [Nat.one_shiftLeft] at below ⊢
  have := Nat.mul_le_mul_right (2 ^ shift) (Nat.le_of_lt_succ small)
  rw [Nat.shiftLeft_eq, Nat.pow_add]
  omega

/-! ## Reading into a word -/

/-- Reads digits into a word, from the place `shift` on. There is no outcome where a digit would
have to be shifted by the size of the word. -/
def readWord (width shift : Nat) (value : UInt64) :
    (bytes : List UInt8) → (position : Nat) → Option (EStateM.Result Fault Cursor UInt64)
  | [], position => some (.error (.unexpectedEnd 1) ⟨position, []⟩)
  | b :: rest, position =>
    if width ≤ shift then some (.error (.varIntTooLong width) ⟨position + 1, rest⟩)
    else if 64 ≤ shift then none
    else
      let value := value ||| (b &&& 0x7F).toUInt64 <<< UInt64.ofNat shift
      if b &&& 0x80 = 0 then some (.ok value ⟨position + 1, rest⟩)
      else readWord width (shift + 7) value rest (position + 1)

/-- What is read, as something else. -/
def mapResult {α β : Type} (f : α → β) :
    EStateM.Result Fault Cursor α → EStateM.Result Fault Cursor β
  | .ok a c => .ok (f a) c
  | .error e c => .error e c

/-- Up to the size of the word there is an outcome, and it is that of adding up digits. -/
theorem readWord_eq {width : Nat} (narrow : width ≤ 64) {shift value : Nat}
    (below : value < 1 <<< shift) (bytes : List UInt8) (position : Nat) :
    readWord width shift (.ofNat value) bytes position =
      some (mapResult UInt64.ofNat (readGroups width shift value bytes position)) := by
  induction bytes generalizing shift value position with
  | nil => rfl
  | cons b rest ih =>
    rw [readWord, readGroups]
    by_cases covered : width ≤ shift
    · rw [if_pos covered, if_pos covered]
      rfl
    have small : shift < 64 := by omega
    have digit : b.toNat % 128 < 128 := Nat.mod_lt _ (by decide)
    rw [if_neg covered, if_neg covered, if_neg (Nat.not_le.2 small), toUInt64_and_digit,
      ofNat_or_shiftLeft below small]
    simp only [and_continuation_eq_zero_iff]
    by_cases ends : b < 128
    · rw [if_pos ends, if_pos ends]
      rfl
    · rw [if_neg ends, if_neg ends]
      exact ih (add_shiftLeft_lt below digit) (position + 1)

/-! ## Results -/

/-- The integer that an item of variable length holds. -/
def Item.integer? : Item → Option Int
  | varShort v => some v.toInt
  | varUnsignedShort v => some v.toNat
  | varInt v => some v.toInt
  | varUnsignedInt v => some v.toNat
  | varLong v => some v.toInt
  | varUnsignedLong v => some v.toNat
  | _ => none

namespace VarKind

/-- The number modulo the size of the type, in the range of the type. -/
def wrap (k : VarKind) (n : Nat) : Int :=
  match k with
  | short | int | long => (n : Int).bmod (2 ^ k.width)
  | unsignedShort | unsignedInt | unsignedLong => n % 2 ^ k.width

theorem integer?_item (k : VarKind) (n : Nat) : (k.item n).integer? = some (k.wrap n) := by
  cases k <;> simp [item, Item.integer?, wrap, width, Int16.toInt_ofNat', Int32.toInt_ofNat',
    Int64.toInt_ofNat', Int16.size, Int32.size, Int64.size]

/-- Nothing is lost when a number is held in a word before it is cut to its type. -/
theorem item_ofNat (k : VarKind) (n : Nat) : k.item (UInt64.ofNat n).toNat = k.item n := by
  rw [UInt64.toNat_ofNat']
  cases k with
  | short => exact congrArg (Item.varShort ⟨⟨·⟩⟩) (ofNat_mod_word (by decide) n)
  | unsignedShort => exact congrArg (Item.varUnsignedShort ⟨·⟩) (ofNat_mod_word (by decide) n)
  | int => exact congrArg (Item.varInt ⟨⟨·⟩⟩) (ofNat_mod_word (by decide) n)
  | unsignedInt => exact congrArg (Item.varUnsignedInt ⟨·⟩) (ofNat_mod_word (by decide) n)
  | long => exact congrArg (Item.varLong ⟨⟨·⟩⟩) (ofNat_mod_word (by decide) n)
  | unsignedLong => exact congrArg (Item.varUnsignedLong ⟨·⟩) (ofNat_mod_word (by decide) n)

theorem width_le (k : VarKind) : k.width ≤ 64 := by cases k <;> decide

theorem map_readWord (k : VarKind) (c : Cursor) :
    (readWord k.width 0 0 c.rest c.position).map (mapResult (k.item ·.toNat)) =
      some (k.shape.read c) := by
  have start : 0 < 1 <<< 0 := by decide
  have word := readWord_eq k.width_le start c.rest c.position
  rw [show (0 : UInt64) = .ofNat 0 from rfl, word, read_eq, Option.map_some]
  show some _ = some (EStateM.map k.item (readVar k.width) c)
  rw [EStateM.map, readVar]
  cases readGroups k.width 0 0 c.rest c.position with
  | ok n c' => simp only [mapResult, item_ofNat]
  | error e c' => rfl

end VarKind

/-! ## The number that digits spell -/

/-- The digits are those of the number in base 128. -/
theorem ofGroups_eq_sum (xs : List UInt8) :
    ofGroups xs = ∑ j ∈ Finset.range xs.length, (xs.getD j 0).toNat % 128 * 128 ^ j := by
  induction xs with
  | nil => rfl
  | cons b xs ih =>
    rw [ofGroups, ih, Finset.mul_sum, List.length_cons, Finset.sum_range_succ', Nat.add_comm]
    refine congrArg₂ (· + ·) (Finset.sum_congr rfl fun j _ => ?_) ?_
    · rw [List.getD_cons_succ, pow_succ, Nat.mul_comm 128, Nat.mul_assoc]
    · simp

/-- The first byte that does not go on is the last one of a spelling. -/
theorem isSpelling_take_of_findIdx? {bytes : List UInt8} {i : Nat}
    (h : bytes.findIdx? (· < 128) = some i) : IsSpelling (bytes.take (i + 1)) := by
  induction bytes generalizing i with
  | nil => exact nomatch h
  | cons b bytes ih =>
    rw [List.findIdx?_cons] at h
    split at h
    · rename_i ends
      cases h
      exact .last (of_decide_eq_true ends)
    · rename_i goesOn
      obtain ⟨i, found, rfl⟩ := Option.map_eq_some_iff.1 h
      exact .more (UInt8.not_lt.1 fun ends => goesOn (decide_eq_true ends)) (ih found)

namespace VarKind

variable {k : VarKind} {c : Cursor}

theorem goesOn_of_findIdx? {bytes : List UInt8} (h : bytes.findIdx? (· < 128) = none) :
    ∀ b ∈ bytes, 128 ≤ b :=
  fun b hb => UInt8.not_lt.1 (of_decide_eq_false (List.findIdx?_eq_none_iff.1 h b hb))

/-- A number is read that ends within the digits that cover the width. -/
theorem read_of_findIdx? {i : Nat} (h : (c.rest.take k.digits).findIdx? (· < 128) = some i) :
    k.shape.read c =
      .ok (k.item (∑ j ∈ Finset.range (i + 1), (c.rest.getD j 0).toNat % 128 * 128 ^ j))
        (c.advance (i + 1)) := by
  obtain ⟨inside, -, -⟩ := List.findIdx?_eq_some_iff_getElem.1 h
  rw [List.length_take, lt_min_iff] at inside
  obtain ⟨few, inside⟩ := inside
  have spelling : IsSpelling (c.rest.take (i + 1)) := by
    have := isSpelling_take_of_findIdx? h
    rwa [List.take_take, Nat.min_eq_left few] at this
  have length : (c.rest.take (i + 1)).length = i + 1 := List.length_take_of_le inside
  have passes : c.Passes (c.rest.take (i + 1)) (c.advance (i + 1)) := Cursor.passes_advance inside
  have number : ofGroups (c.rest.take (i + 1)) =
      ∑ j ∈ Finset.range (i + 1), (c.rest.getD j 0).toNat % 128 * 128 ^ j := by
    rw [ofGroups_eq_sum, length]
    refine Finset.sum_congr rfl fun j hj => ?_
    rw [List.getD_eq_getElem?_getD, List.getD_eq_getElem?_getD,
      List.getElem?_take_of_lt (Finset.mem_range.1 hj)]
  rw [← number]
  exact read_of_isSpelling spelling passes (length.trans_le few)

/-- What is read at a cursor is decided by the first byte, among as many as may hold digits, that
does not go on. If there is one, the sum of the digits up to it is read, wrapped to the range of the
type. If not, the byte behind them is read and refused, or the input ends and lacks a byte. The
digits can be collected in a 64-bit word, none being shifted by as much as its size. -/
theorem read_at_cursor (k : VarKind) (c : Cursor) :
    (k.shape.read c =
      match (c.rest.take k.digits).findIdx? (· < 128) with
      | some i =>
        .ok (k.item (∑ j ∈ Finset.range (i + 1), (c.rest.getD j 0).toNat % 128 * 128 ^ j))
          (c.advance (i + 1))
      | none =>
        if k.digits < c.remaining then
          .error (.varIntTooLong k.width) (c.advance (k.digits + 1))
        else .error (.unexpectedEnd 1) (c.advance c.remaining)) ∧
    (∀ n, (k.item n).integer? = some (k.wrap n)) ∧
    (readWord k.width 0 0 c.rest c.position).map (mapResult (k.item ·.toNat)) =
      some (k.shape.read c) := by
  refine ⟨?_, k.integer?_item, k.map_readWord c⟩
  split
  · rename_i i first
    exact read_of_findIdx? first
  · rename_i goesOn
    split
    · rename_i more
      exact read_of_goesOn (goesOn_of_findIdx? goesOn) more
    · rename_i few
      have few := Nat.not_lt.1 few
      refine read_of_short ?_ few
      rw [List.take_of_length_le few] at goesOn
      exact goesOn_of_findIdx? goesOn

end VarKind

end WireCodec
