import WireCodec.Number.Binary

/-!
# Whole numbers as floats

An eight-byte float that comes from a whole number of eight bytes holds a whole number: the nearest
one that fits its significand (`whole`). Taking its whole part and turning that into a float again
changes nothing, also where the whole part is past the range and clamped.
-/

namespace WireCodec

namespace FloatFormat

/-! ## The significand of a whole number -/

/-- The significand of the float nearest to `m`. It has fifty-three bits, or it is the next power
of two. -/
def significand (m : Nat) : Nat :=
  if m.log2 ≤ 52 then m <<< (52 - m.log2) else shiftRightToEven m (m.log2 - 52)

/-- The whole number nearest to `m` that is a float. -/
def whole (m : Nat) : Nat :=
  if m.log2 ≤ 52 then m else significand m <<< (m.log2 - 52)

variable {m : Nat}

theorem shiftLeft_log2_le (pos : 0 < m) : 1 <<< m.log2 ≤ m := by
  rw [Nat.one_shiftLeft]
  exact Nat.log2_self_le (by omega)

theorem lt_shiftLeft_log2 (m : Nat) : m < 1 <<< (m.log2 + 1) := by
  rw [Nat.one_shiftLeft]
  exact Nat.lt_log2_self

theorem le_shiftRightToEven (n s : Nat) : n / 1 <<< s ≤ shiftRightToEven n s := by
  unfold shiftRightToEven
  simp only
  split <;> omega

theorem shiftRightToEven_le (n s : Nat) : shiftRightToEven n s ≤ n / 1 <<< s + 1 := by
  unfold shiftRightToEven
  simp only
  split <;> omega

/-- A whole quotient is not rounded. -/
theorem shiftRightToEven_shiftLeft (n s : Nat) : shiftRightToEven (n <<< s) s = n := by
  have pos : 0 < 1 <<< s := by
    rw [Nat.one_shiftLeft]
    exact Nat.two_pow_pos s
  have product : n <<< s = n * 1 <<< s := by
    rw [Nat.shiftLeft_eq, Nat.one_shiftLeft]
  unfold shiftRightToEven
  simp only [product, Nat.mul_mod_left, Nat.mul_div_left _ pos]
  rw [if_neg (by omega)]

theorem le_significand (pos : 0 < m) : 1 <<< 52 ≤ significand m := by
  have low := shiftLeft_log2_le pos
  unfold significand
  split
  · rename_i small
    calc 1 <<< 52 = (1 <<< m.log2) <<< (52 - m.log2) := by
          rw [← Nat.shiftLeft_add, Nat.add_sub_cancel' small]
      _ ≤ m <<< (52 - m.log2) := by
          rw [Nat.shiftLeft_eq, Nat.shiftLeft_eq m]
          exact Nat.mul_le_mul_right _ low
  · rename_i large
    refine Nat.le_trans ?_ (le_shiftRightToEven _ _)
    rw [Nat.one_shiftLeft (m.log2 - 52), Nat.le_div_iff_mul_le (Nat.two_pow_pos _),
      ← Nat.shiftLeft_eq, ← Nat.shiftLeft_add]
    rwa [Nat.add_sub_cancel' (by omega)]

theorem significand_lt_of_le (small : m.log2 ≤ 52) : significand m < 1 <<< 53 := by
  rw [significand, if_pos small]
  calc m <<< (52 - m.log2) < (1 <<< (m.log2 + 1)) <<< (52 - m.log2) := by
        rw [Nat.shiftLeft_eq, Nat.shiftLeft_eq _ (52 - m.log2)]
        exact Nat.mul_lt_mul_of_pos_right (lt_shiftLeft_log2 m) (Nat.two_pow_pos _)
    _ = 1 <<< 53 := by
        rw [← Nat.shiftLeft_add]
        congr 1
        omega

theorem significand_le (m : Nat) : significand m ≤ 1 <<< 53 := by
  by_cases small : m.log2 ≤ 52
  · exact Nat.le_of_lt (significand_lt_of_le small)
  · rw [significand, if_neg small]
    apply Nat.le_trans (shiftRightToEven_le _ _)
    have : m / 1 <<< (m.log2 - 52) < 1 <<< 53 := by
      rw [Nat.one_shiftLeft (m.log2 - 52), Nat.div_lt_iff_lt_mul (Nat.two_pow_pos _),
        ← Nat.shiftLeft_eq, ← Nat.shiftLeft_add]
      have := lt_shiftLeft_log2 m
      rwa [show 53 + (m.log2 - 52) = m.log2 + 1 by omega]
    omega

/-! ## Rounding a whole number -/

theorem round_eq (pos : 0 < m) (small : m.log2 < 1000) :
    binary64.round m 0 = (m.log2 + 1022) <<< 52 + significand m := by
  have least : binary64.leastExponent = -1074 := rfl
  have infinite : binary64.infinity = 2047 <<< 52 := rfl
  have last : max ((m.log2 : Int) + 0 - (binary64.fractionBits : Nat)) (-1074) =
      (m.log2 : Int) - 52 := by
    show max ((m.log2 : Int) + 0 - (52 : Nat)) (-1074) = (m.log2 : Int) - 52
    omega
  have bound := significand_le m
  unfold round
  rw [if_neg (by omega), least, last, infinite]
  have exponent : ((m.log2 : Int) - 52 - -1074).toNat = m.log2 + 1022 := by omega
  have kept : (if (m.log2 : Int) - 52 ≤ 0 then m <<< (0 - ((m.log2 : Int) - 52)).toNat
      else shiftRightToEven m ((m.log2 : Int) - 52 - 0).toNat) = significand m := by
    unfold significand
    by_cases exact : m.log2 ≤ 52
    · rw [if_pos exact, if_pos (by omega)]
      congr 1
      omega
    · rw [if_neg exact, if_neg (by omega)]
      congr 1
      omega
  simp only [exponent, kept]
  show min ((m.log2 + 1022) <<< 52 + significand m) (2047 <<< 52) = _
  omega

theorem log2_shiftLeft {s : Nat} (low : 1 <<< 52 ≤ s) (high : s < 1 <<< 53) (k : Nat) :
    (s <<< k).log2 = 52 + k := by
  have least : (1 <<< 52) <<< k ≤ s <<< k := by
    rw [Nat.shiftLeft_eq, Nat.shiftLeft_eq s]
    exact Nat.mul_le_mul_right _ low
  have most : s <<< k < (1 <<< 53) <<< k := by
    rw [Nat.shiftLeft_eq, Nat.shiftLeft_eq (1 <<< 53)]
    exact Nat.mul_lt_mul_of_pos_right high (Nat.two_pow_pos k)
  rw [← Nat.shiftLeft_add, Nat.one_shiftLeft] at least most
  rw [Nat.log2_eq_iff, Nat.add_right_comm]
  · exact ⟨least, most⟩
  · exact Nat.ne_of_gt (Nat.lt_of_lt_of_le (Nat.two_pow_pos _) least)

/-- A whole number is rounded to the float that holds the nearest one. -/
theorem round_whole (small : m.log2 < 999) : binary64.round (whole m) 0 = binary64.round m 0 := by
  by_cases exact : m.log2 ≤ 52
  · rw [whole, if_pos exact]
  have pos : 0 < m := Nat.pos_of_ne_zero fun zero => exact (by rw [zero]; decide)
  have low := le_significand pos
  obtain ⟨k, hk⟩ : ∃ k, m.log2 = 52 + k := ⟨m.log2 - 52, by omega⟩
  rw [whole, if_neg exact, hk, Nat.add_sub_cancel_left, round_eq pos (by omega), hk]
  rcases Nat.lt_or_eq_of_le (significand_le m) with inside | carry
  · have log := log2_shiftLeft low inside k
    have pos' : 0 < significand m <<< k := Nat.pos_of_ne_zero fun zero => by
      rw [zero, Nat.log2_zero] at log
      omega
    rw [round_eq pos' (by omega), log]
    congr 1
    rw [significand, if_neg (by omega), log, Nat.add_sub_cancel_left, shiftRightToEven_shiftLeft]
  · have next : significand m <<< k = (1 <<< 52) <<< (k + 1) := by
      rw [carry, Nat.add_comm k 1, Nat.shiftLeft_add (1 <<< 52)]
      rfl
    have log := log2_shiftLeft (Nat.le_refl (1 <<< 52)) (by decide) (k + 1)
    have pos' : 0 < (1 <<< 52) <<< (k + 1) := Nat.pos_of_ne_zero fun zero => by
      rw [zero, Nat.log2_zero] at log
      omega
    rw [next, round_eq pos' (by omega), log, carry]
    rw [significand, if_neg (by omega), log, Nat.add_sub_cancel_left, shiftRightToEven_shiftLeft]
    omega

/-- The whole part of a significand and an exponent. -/
theorem decode_shiftLeft_add {c s : Nat} (low : 1 <<< 52 ≤ s) (high : s < 1 <<< 53) :
    binary64.decode (c <<< 52 + s) = (s, (c : Int) - 1074) := by
  have field : (c <<< 52 + s) >>> binary64.fractionBits = c + 1 := by
    show (c <<< 52 + s) >>> 52 = c + 1
    omega
  have fraction :
      1 <<< binary64.fractionBits + (c <<< 52 + s) % 1 <<< binary64.fractionBits = s := by
    show 1 <<< 52 + (c <<< 52 + s) % 4503599627370496 = s
    omega
  have least : binary64.leastExponent = -1074 := rfl
  unfold decode
  simp only [field]
  rw [if_neg (by omega), fraction, least]
  congr 1
  omega

/-! ## Back to a whole number -/

theorem round_lt (small : m.log2 < 1000) : binary64.round m 0 < 1 <<< 63 := by
  rcases Nat.eq_zero_or_pos m with rfl | pos
  · decide
  · have := significand_le m
    rw [round_eq pos small]
    omega

/-- `s * 2 ^ e` without its fraction. -/
def wholePart (s : Nat) (e : Int) : Nat := if 0 ≤ e then s <<< e.toNat else s >>> (-e).toNat

/-- The float nearest to a whole number holds the nearest whole number. -/
theorem wholePart_round (small : m.log2 < 999) :
    wholePart (binary64.decode (binary64.round m 0)).1 (binary64.decode (binary64.round m 0)).2 =
      whole m := by
  rcases Nat.eq_zero_or_pos m with rfl | pos
  · decide
  have low := le_significand pos
  rw [round_eq pos (by omega)]
  by_cases exact : m.log2 ≤ 52
  · rw [decode_shiftLeft_add low (significand_lt_of_le exact), wholePart, whole, if_pos exact,
      significand, if_pos exact]
    by_cases full : m.log2 = 52
    · simp [full]
    · have shift : (-(((m.log2 + 1022 : Nat) : Int) - 1074)).toNat = 52 - m.log2 := by omega
      rw [if_neg (by omega), shift, Nat.shiftLeft_shiftRight]
  · rw [whole, if_neg exact]
    rcases Nat.lt_or_eq_of_le (significand_le m) with inside | carry
    · have shift : (((m.log2 + 1022 : Nat) : Int) - 1074).toNat = m.log2 - 52 := by omega
      rw [decode_shiftLeft_add low inside, wholePart, if_pos (by omega), shift]
    · have next : (m.log2 + 1022) <<< 52 + 1 <<< 53 = (m.log2 + 1023) <<< 52 + 1 <<< 52 := by omega
      have shift : (((m.log2 + 1023 : Nat) : Int) - 1074).toNat = 1 + (m.log2 - 52) := by omega
      rw [carry, next, decode_shiftLeft_add (s := 1 <<< 52) (Nat.le_refl _) (by decide), wholePart,
        if_pos (by omega), shift, Nat.shiftLeft_add (1 <<< 52)]
      rfl

variable {z : Int}

theorem magnitude_ofInt (small : z.natAbs.log2 < 1000) :
    binary64.magnitude (binary64.ofInt z) = binary64.round z.natAbs 0 := by
  have weight : binary64.signWeight = 1 <<< 63 := rfl
  have := round_lt small
  unfold magnitude ofInt
  rw [weight]
  split
  · rw [Nat.add_mod_left, Nat.mod_eq_of_lt this]
  · rw [Nat.zero_add, Nat.mod_eq_of_lt this]

theorem isNegative_ofInt (small : z.natAbs.log2 < 1000) :
    binary64.isNegative (binary64.ofInt z) = decide (z < 0) := by
  have weight : binary64.signWeight = 1 <<< 63 := rfl
  have := round_lt small
  unfold isNegative ofInt
  rw [weight, decide_eq_decide]
  split
  · simp_all
  · omega

theorem isNaN_ofInt (small : z.natAbs.log2 < 1000) :
    binary64.isNaN (binary64.ofInt z) = false := by
  rw [isNaN, magnitude_ofInt small, decide_eq_false_iff_not, Nat.not_lt]
  unfold round
  split
  · exact Nat.zero_le _
  · exact Nat.min_le_right _ _

theorem truncate_ofInt (small : z.natAbs.log2 < 999) :
    binary64.truncate (binary64.ofInt z) =
      if z < 0 then -(whole z.natAbs : Int) else whole z.natAbs := by
  have part := wholePart_round small
  rw [← magnitude_ofInt (by omega)] at part
  rw [← part]
  unfold truncate
  rw [isNegative_ofInt (by omega)]
  simp only [decide_eq_true_eq]
  rfl

theorem truncateWithin_bounds (f : FloatFormat) {lo hi : Int} (low : lo ≤ 0) (high : 0 ≤ hi)
    (bits : Nat) : lo ≤ f.truncateWithin lo hi bits ∧ f.truncateWithin lo hi bits ≤ hi := by
  unfold truncateWithin
  split <;> omega

/-! ## Eight-byte integers -/

theorem log2_le_of_le (h : m ≤ 1 <<< 63) : m.log2 ≤ 63 := by
  rcases Nat.eq_zero_or_pos m with rfl | pos
  · decide
  · exact Nat.le_of_lt_succ ((Nat.log2_lt (by omega)).2 (Nat.lt_of_le_of_lt h (by decide)))

/-- Rounding does not leave the range of eight-byte integers but for the number next to it. -/
theorem whole_le (h : m ≤ 1 <<< 63) : whole m ≤ 1 <<< 63 := by
  have := log2_le_of_le h
  unfold whole
  split
  · exact h
  rename_i large
  by_cases top : m.log2 = 63
  · have pos : 0 < m := Nat.pos_of_ne_zero fun zero => large (by rw [zero]; decide)
    have least := shiftLeft_log2_le pos
    rw [top] at least
    rw [Nat.le_antisymm h least]
    decide
  · calc significand m <<< (m.log2 - 52) ≤ (1 <<< 53) <<< (m.log2 - 52) := by
          rw [Nat.shiftLeft_eq, Nat.shiftLeft_eq (1 <<< 53)]
          exact Nat.mul_le_mul_right _ (significand_le m)
      _ ≤ 1 <<< 63 := by
          rw [← Nat.shiftLeft_add, Nat.one_shiftLeft, Nat.one_shiftLeft]
          exact Nat.pow_le_pow_right (by decide) (by omega)

theorem whole_pos (pos : 0 < m) : 0 < whole m := by
  unfold whole
  split
  · exact pos
  · rw [Nat.shiftLeft_eq]
    exact Nat.mul_pos (Nat.lt_of_lt_of_le (by decide) (le_significand pos)) (Nat.two_pow_pos _)

/-- The greatest eight-byte integer is rounded to the number next to it. -/
theorem round_greatest : binary64.round (1 <<< 63 - 1) 0 = binary64.round (1 <<< 63) 0 := by
  decide +kernel

/-- The whole part of a whole number as a float, clamped to eight bytes, is the same float. -/
theorem ofInt_truncateWithin (h : z.natAbs ≤ 1 <<< 63) :
    binary64.ofInt (binary64.truncateWithin (-9223372036854775808) 9223372036854775807
      (binary64.ofInt z)) = binary64.ofInt z := by
  have log := log2_le_of_le h
  have small := whole_le h
  have again := round_whole (m := z.natAbs) (by omega)
  rw [truncateWithin, isNaN_ofInt (by omega), if_neg Bool.false_ne_true, truncate_ofInt (by omega)]
  by_cases negative : z < 0
  · have pos := whole_pos (m := z.natAbs) (by omega)
    have inside : max (-9223372036854775808)
        (min 9223372036854775807 (-(whole z.natAbs : Int))) = -(whole z.natAbs : Int) := by omega
    rw [if_pos negative, inside, ofInt, ofInt, if_pos (by omega), if_pos negative, Int.natAbs_neg,
      Int.natAbs_natCast, again]
  · rw [if_neg negative]
    by_cases top : whole z.natAbs = 1 <<< 63
    · have clamped : max (-9223372036854775808) (min 9223372036854775807 ((1 <<< 63 : Nat) : Int)) =
          ((1 <<< 63 - 1 : Nat) : Int) := by decide
      rw [top, clamped, ofInt, ofInt, if_neg (by omega), if_neg negative, Int.natAbs_natCast,
        round_greatest, ← top, again]
    · have inside : max (-9223372036854775808)
          (min 9223372036854775807 (whole z.natAbs : Int)) = (whole z.natAbs : Int) := by omega
      rw [inside, ofInt, ofInt, if_neg (by omega), if_neg negative, Int.natAbs_natCast, again]

end FloatFormat

namespace Binary64

theorem toNat_bits_ofInt {z : Int} (small : z.natAbs.log2 < 1000) :
    (ofInt z).bits.toNat = FloatFormat.binary64.ofInt z := by
  have weight : FloatFormat.binary64.signWeight = 1 <<< 63 := rfl
  have := FloatFormat.round_lt small
  rw [ofInt, UInt64.toNat_ofNat']
  apply Nat.mod_eq_of_lt
  unfold FloatFormat.ofInt
  rw [weight]
  split <;> omega

theorem toInt_toInt64 (x : Binary64) :
    x.toInt64.toInt = x.truncateWithin (-9223372036854775808) 9223372036854775807 := by
  have low : Int64.minValue.toInt = -9223372036854775808 := by decide
  have high : Int64.maxValue.toInt = 9223372036854775807 := by decide
  have bounds := FloatFormat.binary64.truncateWithin_bounds
    (show (-9223372036854775808 : Int) ≤ 0 by decide)
    (show (0 : Int) ≤ 9223372036854775807 by decide) x.bits.toNat
  rw [toInt64, low, high]
  exact Int64.toInt_ofInt_of_le bounds.1 (Int.lt_of_le_sub_one bounds.2)

/-- Taking the whole part of a whole number as a float and turning it into a float again changes
nothing. -/
theorem ofInt64_toInt64_ofInt64 (z : Int64) : ofInt64 (ofInt64 z).toInt64 = ofInt64 z := by
  have low := z.le_toInt
  have high := z.toInt_lt
  have bound : z.toInt.natAbs ≤ 1 <<< 63 := by omega
  have bits := toNat_bits_ofInt (z := z.toInt)
    (Nat.lt_of_le_of_lt (FloatFormat.log2_le_of_le bound) (by decide))
  show ofInt (ofInt z.toInt).toInt64.toInt = ofInt z.toInt
  rw [toInt_toInt64, truncateWithin, bits]
  exact congrArg (fun n => (⟨.ofNat n⟩ : Binary64)) (FloatFormat.ofInt_truncateWithin bound)

end Binary64

end WireCodec
