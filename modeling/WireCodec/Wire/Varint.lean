import WireCodec.Wire.Buffer
import WireCodec.Wire.Cursor

/-!
# Integers of variable length

A number is spelled in base 128, the low digit first; every byte but the last carries the
continuation bit `128`. A signed integer is spelled as the unsigned one of its width with the same
bits.

Reading adds up the digits until a byte without the continuation bit. A byte at which the digits
already cover the width is an error, and that byte has been read by then; what the last admitted
digit holds beyond the width is dropped.
-/

namespace WireCodec

/-- The base-128 spelling of `n`, the low digit first. -/
def groups (n : Nat) : List UInt8 :=
  if n < 128 then [.ofNat n] else .ofNat (n % 128 + 128) :: groups (n / 128)
termination_by n
decreasing_by omega

theorem groups_of_lt {n : Nat} (h : n < 128) : groups n = [.ofNat n] := by
  rw [groups, if_pos h]

theorem groups_of_le {n : Nat} (h : 128 ≤ n) :
    groups n = .ofNat (n % 128 + 128) :: groups (n / 128) := by
  rw [groups, if_neg (by omega)]

theorem toNat_lastGroup {n : Nat} (h : n < 128) : (UInt8.ofNat n).toNat = n := by
  rw [UInt8.toNat_ofNat', Nat.mod_eq_of_lt (by omega)]

theorem toNat_continuedGroup (n : Nat) :
    (UInt8.ofNat (n % 128 + 128)).toNat = n % 128 + 128 := by
  rw [UInt8.toNat_ofNat', Nat.mod_eq_of_lt (by omega)]

theorem lastGroup_lt {n : Nat} (h : n < 128) : UInt8.ofNat n < 128 := by
  rw [UInt8.lt_iff_toNat_lt, toNat_lastGroup h]
  exact h

theorem continuedGroup_not_lt (n : Nat) : ¬ UInt8.ofNat (n % 128 + 128) < 128 := by
  rw [UInt8.lt_iff_toNat_lt, toNat_continuedGroup]
  exact Nat.not_lt.2 (Nat.le_add_left _ _)

/-- Reads digits from `bytes`, which start at `position`, onto the `shift` bits of `value`. -/
def readGroups (width : Nat) (shift value : Nat) :
    (bytes : List UInt8) → (position : Nat) → EStateM.Result Fault Cursor Nat
  | [], position => .error (.unexpectedEnd 1) ⟨position, []⟩
  | b :: rest, position =>
    if width ≤ shift then .error (.varIntTooLong width) ⟨position + 1, rest⟩
    else
      let value := value + (b.toNat % 128) <<< shift
      if b < 128 then .ok value ⟨position + 1, rest⟩
      else readGroups width (shift + 7) value rest (position + 1)

/-- The number at the cursor, read for an integer of the given width. -/
def readVar (width : Nat) : ReadM Nat := fun c => readGroups width 0 0 c.rest c.position

/-! ## Writing -/

def writeVarUnsignedShort (v : UInt16) : WriteM Unit := put (groups v.toNat)

def writeVarShort (v : Int16) : WriteM Unit := writeVarUnsignedShort v.toUInt16

def writeVarUnsignedInt (v : UInt32) : WriteM Unit := put (groups v.toNat)

def writeVarInt (v : Int32) : WriteM Unit := writeVarUnsignedInt v.toUInt32

def writeVarUnsignedLong (v : UInt64) : WriteM Unit := put (groups v.toNat)

def writeVarLong (v : Int64) : WriteM Unit := writeVarUnsignedLong v.toUInt64

/-! ## Reading -/

def readVarUnsignedShort : ReadM UInt16 := UInt16.ofNat <$> readVar 16

def readVarShort : ReadM Int16 := UInt16.toInt16 <$> readVarUnsignedShort

def readVarUnsignedInt : ReadM UInt32 := UInt32.ofNat <$> readVar 32

def readVarInt : ReadM Int32 := UInt32.toInt32 <$> readVarUnsignedInt

def readVarUnsignedLong : ReadM UInt64 := UInt64.ofNat <$> readVar 64

def readVarLong : ReadM Int64 := UInt64.toInt64 <$> readVarUnsignedLong

end WireCodec
