import WireCodec.Dispatch.TypeTable
import WireCodec.Proofs.Transport
import WireCodec.Wire.Item

/-!
# Round trips of items

Every item that the wire admits has one spelling (`Item.spell`). Writing the item appends its
spelling, and reading its shape from any input that starts with the spelling gives the item back and
stops right behind it. An item that is not admitted is refused before anything is written.
-/

namespace WireCodec

/-! ## Spellings -/

/-- The bytes of an item. -/
def Item.spell : Item → List UInt8
  | boolean v => [if v then 1 else 0]
  | byte v => [v.toUInt8]
  | unsignedByte v => [v]
  | short v => bigEndian 2 v.toUInt16.toNat
  | unsignedShort v => bigEndian 2 v.toNat
  | int v => bigEndian 4 v.toUInt32.toNat
  | unsignedInt v => bigEndian 4 v.toNat
  | float v => bigEndian 4 v.bits.toNat
  | double v => bigEndian 8 v.bits.toNat
  | varShort v => groups v.toUInt16.toNat
  | varUnsignedShort v => groups v.toNat
  | varInt v => groups v.toUInt32.toNat
  | varUnsignedInt v => groups v.toNat
  | varLong v => groups v.toUInt64.toNat
  | varUnsignedLong v => groups v.toNat
  | utf s => bigEndian 2 s.utf8ByteSize ++ utf8 s
  | bytes xs => xs
  | count n => bigEndian 2 n
  | flag bit v => [if v then 1 <<< bit else 0]

/-- Why the wire does not admit an item, if it does not. -/
def Item.refusal? : Item → Option Fault
  | utf s => if maxSize < s.utf8ByteSize then some (.stringTooLong s.utf8ByteSize) else none
  | count n => if maxSize < n then some (.vectorTooLong n) else none
  | flag bit _ => if FlagByte.maxBit < bit then some (.flagOverflow bit) else none
  | _ => none

@[simp] theorem Item.refusal?_utf {s : String} :
    (utf s).refusal? = none ↔ s.utf8ByteSize ≤ maxSize := by
  simp [refusal?]

@[simp] theorem Item.refusal?_count {n : Nat} : (count n).refusal? = none ↔ n ≤ maxSize := by
  simp [refusal?]

@[simp] theorem Item.refusal?_flag {bit : UInt8} {v : Bool} :
    (flag bit v).refusal? = none ↔ bit ≤ FlagByte.maxBit := by
  simp [refusal?]

theorem toNat_ofNat_of_le_maxSize {n : Nat} (h : n ≤ maxSize) : (UInt16.ofNat n).toNat = n := by
  rw [UInt16.toNat_ofNat', Nat.mod_eq_of_lt]
  unfold maxSize at h
  omega

theorem emits_writeUnsignedShort_ofNat {n : Nat} (h : n ≤ maxSize) :
    Emits (writeUnsignedShort (.ofNat n)) (bigEndian 2 n) := by
  unfold writeUnsignedShort
  rw [toNat_ofNat_of_le_maxSize h]
  exact emits_put _

theorem emits_writeUtf {s : String} (h : s.utf8ByteSize ≤ maxSize) :
    Emits (writeUtf s) (bigEndian 2 s.utf8ByteSize ++ utf8 s) := by
  unfold writeUtf
  rw [if_neg (Nat.not_lt.2 h)]
  exact (emits_writeUnsignedShort_ofNat h).bind (emits_put _)

theorem halts_writeUtf {s : String} (h : maxSize < s.utf8ByteSize) :
    Halts (writeUtf s) (.stringTooLong s.utf8ByteSize) [] := by
  unfold writeUtf
  rw [if_pos h]
  exact (halts_throw _).bind

theorem emits_writeCount {n : Nat} (h : n ≤ maxSize) : Emits (writeCount n) (bigEndian 2 n) := by
  unfold writeCount
  rw [if_neg (Nat.not_lt.2 h)]
  exact emits_writeUnsignedShort_ofNat h

theorem halts_writeCount {n : Nat} (h : maxSize < n) :
    Halts (writeCount n) (.vectorTooLong n) [] := by
  unfold writeCount
  rw [if_pos h]
  exact (halts_throw _).bind

theorem emits_writeFlag {bit : UInt8} (h : bit ≤ FlagByte.maxBit) (v : Bool) :
    Emits (writeFlag bit v) [if v then 1 <<< bit else 0] := by
  have set : FlagByte.set 0 bit v = .ok (if v then 1 <<< bit else 0) := by
    rw [FlagByte.set, if_neg (UInt8.not_lt.2 h)]
    cases v <;> simp <;> rfl
  unfold writeFlag
  rw [set]
  exact emits_put _

theorem halts_writeFlag {bit : UInt8} (h : FlagByte.maxBit < bit) (v : Bool) :
    Halts (writeFlag bit v) (.flagOverflow bit) [] := by
  have set : FlagByte.set 0 bit v = .error (.flagOverflow bit) := by
    rw [FlagByte.set, if_pos h]
    rfl
  unfold writeFlag
  rw [set]
  exact halts_throw _

/-- An admitted item is written as its spelling. -/
theorem Item.emits_write {i : Item} (h : i.refusal? = none) : Emits i.write i.spell := by
  cases i with
  | utf s => exact emits_writeUtf (refusal?_utf.1 h)
  | count n => exact emits_writeCount (refusal?_count.1 h)
  | flag bit v => exact emits_writeFlag (refusal?_flag.1 h) v
  | _ => exact emits_put _

/-- Nothing is written of an item that is not admitted. -/
theorem Item.halts_write {i : Item} {e : Fault} (h : i.refusal? = some e) : Halts i.write e [] := by
  cases i with
  | utf s =>
    obtain ⟨large, rfl⟩ : maxSize < s.utf8ByteSize ∧ _ = e := by simpa [refusal?] using h
    exact halts_writeUtf large
  | count n =>
    obtain ⟨large, rfl⟩ : maxSize < n ∧ _ = e := by simpa [refusal?] using h
    exact halts_writeCount large
  | flag bit v =>
    obtain ⟨large, rfl⟩ : FlagByte.maxBit < bit ∧ _ = e := by simpa [refusal?] using h
    exact halts_writeFlag large v
  | _ => simp [refusal?] at h

/-! ## Reading numbers of fixed width -/

theorem reads_take (xs : List UInt8) : Reads (take xs.length) xs xs := by
  intro p rest
  refine (run_take_of_le (c := ⟨p, xs ++ rest⟩) ?_).trans ?_
  · simp [Cursor.remaining]
  · simp [Cursor.advance]

theorem reads_takeByte (b : UInt8) : Reads takeByte [b] b := fun _ _ => rfl

theorem reads_takeNat {k n : Nat} (h : n < 1 <<< (8 * k)) :
    Reads (takeNat k) (bigEndian k n) n := by
  have taken := (reads_take (bigEndian k n)).map ofBigEndian
  rwa [length_bigEndian, ofBigEndian_bigEndian, Nat.mod_eq_of_lt h] at taken

theorem reads_readBoolean (v : Bool) : Reads readBoolean [if v then 1 else 0] v := by
  have := (reads_takeByte (if v then 1 else 0)).map (· != 0)
  cases v <;> exact this

theorem reads_readByte (v : Int8) : Reads readByte [v.toUInt8] v :=
  (reads_takeByte v.toUInt8).map UInt8.toInt8

theorem reads_readUnsignedShort (v : UInt16) : Reads readUnsignedShort (bigEndian 2 v.toNat) v := by
  have := (reads_takeNat (k := 2) v.toNat_lt).map UInt16.ofNat
  rwa [UInt16.ofNat_toNat] at this

theorem reads_readShort (v : Int16) : Reads readShort (bigEndian 2 v.toUInt16.toNat) v :=
  (reads_readUnsignedShort v.toUInt16).map UInt16.toInt16

theorem reads_readUnsignedInt (v : UInt32) : Reads readUnsignedInt (bigEndian 4 v.toNat) v := by
  have := (reads_takeNat (k := 4) v.toNat_lt).map UInt32.ofNat
  rwa [UInt32.ofNat_toNat] at this

theorem reads_readInt (v : Int32) : Reads readInt (bigEndian 4 v.toUInt32.toNat) v :=
  (reads_readUnsignedInt v.toUInt32).map UInt32.toInt32

theorem reads_readFloat (v : Binary32) : Reads readFloat (bigEndian 4 v.bits.toNat) v :=
  (reads_readUnsignedInt v.bits).map Binary32.mk

theorem reads_readDouble (v : Binary64) : Reads readDouble (bigEndian 8 v.bits.toNat) v := by
  have := (reads_takeNat (k := 8) v.bits.toNat_lt).map fun n => (⟨.ofNat n⟩ : Binary64)
  rwa [UInt64.ofNat_toNat] at this

/-! ## Reading numbers of variable length -/

/-- The digits of a number that fits what is left of the width add up to it. -/
theorem readGroups_groups {width shift n : Nat} (room : shift < width)
    (h : n < 1 <<< (width - shift)) (value position : Nat) (rest : List UInt8) :
    readGroups width shift value (groups n ++ rest) position =
      .ok (value + n <<< shift) ⟨position + (groups n).length, rest⟩ := by
  induction n using groups.induct generalizing shift value position with
  | case1 n small =>
    rw [groups_of_lt small, List.singleton_append, readGroups, if_neg (by omega),
      if_pos (lastGroup_lt small), toNat_lastGroup small, Nat.mod_eq_of_lt small]
    rfl
  | case2 n large ih =>
    have room' : shift + 7 < width := by
      -- a number of at least two digits does not fit seven bits
      refine Nat.lt_of_not_le fun full => ?_
      have := Nat.pow_le_pow_right (n := 2) (by decide) (show width - shift ≤ 7 by omega)
      rw [Nat.shiftLeft_eq, Nat.one_mul] at h
      omega
    have h' : n / 128 < 1 <<< (width - (shift + 7)) := by
      rw [Nat.div_lt_iff_lt_mul (by decide)]
      apply Nat.lt_of_lt_of_eq h
      rw [Nat.shiftLeft_eq, Nat.shiftLeft_eq, Nat.one_mul, Nat.one_mul,
        ← Nat.pow_add 2 _ 7, Nat.sub_add_eq, Nat.sub_add_cancel (by omega)]
    have total : value + (n % 128) <<< shift + (n / 128) <<< (shift + 7) = value + n <<< shift := by
      simp only [Nat.shiftLeft_eq, Nat.pow_add]
      have := congrArg (· * 2 ^ shift) (Nat.mod_add_div n 128)
      simp only [Nat.add_mul] at this
      grind
    rw [groups_of_le (Nat.not_lt.1 large), List.cons_append, readGroups, if_neg (by omega),
      toNat_continuedGroup, if_neg (continuedGroup_not_lt n)]
    simp only [Nat.add_mod_right, Nat.mod_mod]
    rw [ih room' h', total, List.length_cons]
    congr 2
    omega

theorem reads_readVar (width : Nat) {n : Nat} (room : 0 < width) (h : n < 1 <<< width) :
    Reads (readVar width) (groups n) n := by
  intro p rest
  apply (readGroups_groups room h 0 p rest).trans
  rw [Nat.zero_add, Nat.shiftLeft_zero]

theorem reads_readVarUnsignedShort (v : UInt16) :
    Reads readVarUnsignedShort (groups v.toNat) v := by
  have := (reads_readVar 16 (by decide) v.toNat_lt).map UInt16.ofNat
  rwa [UInt16.ofNat_toNat] at this

theorem reads_readVarShort (v : Int16) : Reads readVarShort (groups v.toUInt16.toNat) v :=
  (reads_readVarUnsignedShort v.toUInt16).map UInt16.toInt16

theorem reads_readVarUnsignedInt (v : UInt32) : Reads readVarUnsignedInt (groups v.toNat) v := by
  have := (reads_readVar 32 (by decide) v.toNat_lt).map UInt32.ofNat
  rwa [UInt32.ofNat_toNat] at this

theorem reads_readVarInt (v : Int32) : Reads readVarInt (groups v.toUInt32.toNat) v :=
  (reads_readVarUnsignedInt v.toUInt32).map UInt32.toInt32

theorem reads_readVarUnsignedLong (v : UInt64) : Reads readVarUnsignedLong (groups v.toNat) v := by
  have := (reads_readVar 64 (by decide) v.toNat_lt).map UInt64.ofNat
  rwa [UInt64.ofNat_toNat] at this

theorem reads_readVarLong (v : Int64) : Reads readVarLong (groups v.toUInt64.toNat) v :=
  (reads_readVarUnsignedLong v.toUInt64).map UInt64.toInt64

/-! ## Reading strings, counts and flags -/

theorem reads_readCount {n : Nat} (h : n ≤ maxSize) : Reads readCount (bigEndian 2 n) n := by
  have := (reads_readUnsignedShort (.ofNat n)).map UInt16.toNat
  rwa [toNat_ofNat_of_le_maxSize h] at this

theorem reads_readUtf {s : String} (h : s.utf8ByteSize ≤ maxSize) :
    Reads readUtf (bigEndian 2 s.utf8ByteSize ++ utf8 s) s := by
  have size := reads_readUnsignedShort (.ofNat s.utf8ByteSize)
  rw [toNat_ofNat_of_le_maxSize h] at size
  unfold readUtf
  apply size.bind
  rw [toNat_ofNat_of_le_maxSize h, ← length_utf8]
  apply (reads_take (utf8 s)).bind_nil
  rw [ofUtf8?_utf8]
  exact reads_pure s

theorem get_flagByte {bit : UInt8} (h : bit ≤ FlagByte.maxBit) (v : Bool) :
    FlagByte.get (if v then 1 <<< bit else 0) bit = .ok v := by
  have bits : ∀ n : Fin 8, (1 <<< UInt8.ofNat n) &&& (1 <<< UInt8.ofNat n) != (0 : UInt8) := by
    decide
  rw [FlagByte.get, if_neg (UInt8.not_lt.2 h)]
  cases v with
  | false => simp [pure, Except.pure]
  | true =>
    have := bits ⟨bit.toNat, Nat.lt_succ_of_le (UInt8.le_iff_toNat_le.1 h)⟩
    rw [UInt8.ofNat_toNat] at this
    rw [if_pos rfl, this]
    rfl

theorem reads_readFlag {bit : UInt8} (h : bit ≤ FlagByte.maxBit) (v : Bool) :
    Reads (readFlag bit) [if v then 1 <<< bit else 0] v := by
  apply (reads_takeByte _).bind_nil
  rw [get_flagByte h]
  exact reads_pure v

/-- An admitted item is read back from its spelling. -/
theorem Item.reads_shape {i : Item} (h : i.refusal? = none) : Reads i.shape.read i.spell i := by
  cases i with
  | boolean v => exact (reads_readBoolean v).map _
  | byte v => exact (reads_readByte v).map _
  | unsignedByte v => exact (reads_takeByte v).map _
  | short v => exact (reads_readShort v).map _
  | unsignedShort v => exact (reads_readUnsignedShort v).map _
  | int v => exact (reads_readInt v).map _
  | unsignedInt v => exact (reads_readUnsignedInt v).map _
  | float v => exact (reads_readFloat v).map _
  | double v => exact (reads_readDouble v).map _
  | varShort v => exact (reads_readVarShort v).map _
  | varUnsignedShort v => exact (reads_readVarUnsignedShort v).map _
  | varInt v => exact (reads_readVarInt v).map _
  | varUnsignedInt v => exact (reads_readVarUnsignedInt v).map _
  | varLong v => exact (reads_readVarLong v).map _
  | varUnsignedLong v => exact (reads_readVarUnsignedLong v).map _
  | utf s => exact (reads_readUtf (refusal?_utf.1 h)).map _
  | bytes xs => exact (reads_take xs).map _
  | count n => exact (reads_readCount (refusal?_count.1 h)).map _
  | flag bit v => exact (reads_readFlag (refusal?_flag.1 h) v).map _

/-! ## Sequences -/

section Sequences

variable {α β σ : Type} {spell : α → List UInt8}

/-- The elements are read behind their count. -/
theorem Fills.extend {push : σ → β → σ} {read : ReadM β} {n : Nat} {xs : List UInt8} {v v' : σ}
    (h : n ≤ maxSize) (loop : Fills (.times (.assign push read) n) xs v v') :
    Fills (.extend push read) (bigEndian 2 n ++ xs) v v' := by
  intro p rest
  unfold FillM.extend
  show EStateM.bind (FillM.reading readCount) _ _ = _
  rw [EStateM.bind, FillM.reading, List.append_assoc, reads_readCount h p, length_bigEndian]
  apply (loop (p + 2) rest).trans
  rw [List.length_append, length_bigEndian, Nat.add_assoc]

/-- The elements are added one after the other behind those already there. -/
theorem fills_extend (push : σ → β → σ) {read : ReadM β} {result : α → β} {xs : Array α}
    (h : xs.size ≤ maxSize) (each : ∀ x ∈ xs, Reads read (spell x) (result x)) (v : σ) :
    Fills (.extend push read) (bigEndian 2 xs.size ++ xs.toList.flatMap spell) v
      (xs.toList.foldl (fun v x => push v (result x)) v) :=
  .extend h (fills_times push (fun x hx => each x (Array.mem_def.2 hx)) v)

end Sequences

/-! ## Type ids -/

theorem reads_readInstance {τ : Type} {types : TypeTable τ} {id : UInt16} {start : τ}
    (h : types.find? id = some start) :
    Reads types.readInstance (bigEndian 2 id.toNat) start := by
  apply (reads_readUnsignedShort id).bind_nil
  rw [TypeTable.create, IdTable.get, h]
  exact reads_pure start

theorem reads_readValue {τ : Type} {types : TypeTable τ} {fill : FillM τ Unit} {id : UInt16}
    {start v : τ} {xs : List UInt8} (h : types.find? id = some start)
    (filled : Fills fill xs start v) :
    Reads (types.readValue fill) (bigEndian 2 id.toNat ++ xs) v :=
  (reads_readInstance h).bind filled.fresh

end WireCodec
