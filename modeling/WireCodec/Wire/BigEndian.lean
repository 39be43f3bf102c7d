/-!
# Big-endian numbers

`bigEndian k n` spells `n` in `k` bytes, the high byte first, and `ofBigEndian` reads such a
spelling. The two are inverse to each other on the numbers below `256 ^ k` and on the byte strings
of length `k`.
-/

namespace WireCodec

/-- The `k` low base-256 digits of `n`, the highest first. -/
def bigEndian : Nat → Nat → List UInt8
  | 0, _ => []
  | k + 1, n => bigEndian k (n / 256) ++ [.ofNat n]

/-- The number whose base-256 digits are the given bytes, the highest first. -/
def ofBigEndian (bytes : List UInt8) : Nat := bytes.foldl (fun n b => 256 * n + b.toNat) 0

@[simp] theorem length_bigEndian (k n : Nat) : (bigEndian k n).length = k := by
  induction k generalizing n with
  | zero => rfl
  | succ k ih => simp [bigEndian, ih]

theorem ofBigEndian_nil : ofBigEndian [] = 0 := rfl

theorem ofBigEndian_concat (bytes : List UInt8) (b : UInt8) :
    ofBigEndian (bytes ++ [b]) = 256 * ofBigEndian bytes + b.toNat := by
  simp [ofBigEndian]

theorem one_shiftLeft_byte (k : Nat) : 1 <<< (8 * (k + 1)) = 256 * 1 <<< (8 * k) := by
  rw [Nat.mul_succ, Nat.shiftLeft_add, Nat.shiftLeft_eq, Nat.mul_comm]

/-- Digits above the highest are dropped. -/
theorem ofBigEndian_bigEndian (k n : Nat) :
    ofBigEndian (bigEndian k n) = n % 1 <<< (8 * k) := by
  induction k generalizing n with
  | zero => simp [bigEndian, ofBigEndian_nil, Nat.mod_one]
  | succ k ih =>
    have digit : (UInt8.ofNat n).toNat = n % 256 := UInt8.toNat_ofNat'
    rw [bigEndian, ofBigEndian_concat, ih, digit, one_shiftLeft_byte, Nat.mod_mul, Nat.add_comm]

theorem ofBigEndian_lt (bytes : List UInt8) :
    ofBigEndian bytes < 1 <<< (8 * bytes.length) := by
  induction k : bytes.length generalizing bytes with
  | zero => simp [List.eq_nil_of_length_eq_zero k, ofBigEndian_nil]
  | succ k ih =>
    obtain rfl | ⟨init, b, rfl⟩ := List.eq_nil_or_concat bytes
    · contradiction
    · have := ih init (by simp_all)
      have hb : b.toNat < 256 := b.toNat_lt
      rw [List.concat_eq_append, ofBigEndian_concat, one_shiftLeft_byte]
      omega

theorem bigEndian_ofBigEndian (bytes : List UInt8) :
    bigEndian bytes.length (ofBigEndian bytes) = bytes := by
  induction k : bytes.length generalizing bytes with
  | zero => simp [List.eq_nil_of_length_eq_zero k, bigEndian]
  | succ k ih =>
    obtain rfl | ⟨init, b, rfl⟩ := List.eq_nil_or_concat bytes
    · contradiction
    · have hb : b.toNat < 256 := b.toNat_lt
      have high : (256 * ofBigEndian init + b.toNat) / 256 = ofBigEndian init := by omega
      have low : UInt8.ofNat (256 * ofBigEndian init + b.toNat) = b := by
        simp [UInt8.ofNat_add, UInt8.ofNat_mul]
      rw [List.concat_eq_append, ofBigEndian_concat, bigEndian, high, low, ih init (by simp_all)]

end WireCodec
