import WireCodec.Proofs.ItemRoundTrip
import WireCodec.Program.Scalar
import WireCodec.Source.Message

/-!
# Integers carried by other integer types

A field of an integer type may be carried by a method of another width or sign. The generated code
casts the value to the method's type and casts back what it reads. A type that is as wide as the
field loses nothing. A narrower one keeps the low bits, and what is read back is their extension:
by sign if the method's type is signed, whatever the field's, and by zeros otherwise.
-/

namespace WireCodec

/-! ## Casts -/

/-- An integer type of the generated code. -/
structure IntegerType where
  width : Nat
  signed : Bool
  deriving DecidableEq, Repr

/-- The type as an integer type, if it is one. -/
def NativeType.integer? : NativeType → Option IntegerType
  | i8 => some ⟨8, true⟩
  | i16 => some ⟨16, true⟩
  | i32 => some ⟨32, true⟩
  | i64 => some ⟨64, true⟩
  | u16 => some ⟨16, false⟩
  | u32 => some ⟨32, false⟩
  | u64 => some ⟨64, false⟩
  | bool | f32 | f64 | text => none

/-- An integer of the generated code. -/
structure NativeInteger where
  type : IntegerType
  bits : BitVec type.width

/-- What is left of bits that a type holds, at their own width again: all of them if the type is as
wide, and otherwise the low ones, extended by sign if the type is signed and by zeros if not. -/
def IntegerType.extend (t : IntegerType) {n : Nat} (x : BitVec n) : BitVec n :=
  if n ≤ t.width then x
  else if t.signed then (x.setWidth t.width).signExtend n
  else (x.setWidth t.width).setWidth n

namespace NativeInteger

/-- The cast to another type: to a narrower one it keeps the low bits, to a wider one it extends the
bits as the sign of the type demands from which it casts. -/
def as (a : NativeInteger) (t : IntegerType) : NativeInteger :=
  ⟨t, if a.type.signed then a.bits.signExtend t.width else a.bits.setWidth t.width⟩

def value (a : NativeInteger) : Int :=
  if a.type.signed then a.bits.toInt else a.bits.toNat

theorem setWidth_signExtend_of_le {n w : Nat} (x : BitVec n) (wide : n ≤ w) :
    (x.signExtend w).setWidth n = x := by
  apply BitVec.eq_of_getLsbD_eq
  intro i below
  have within : i < w := Nat.lt_of_lt_of_le below wide
  rw [BitVec.getLsbD_setWidth, BitVec.getLsbD_signExtend, if_pos below, decide_eq_true below,
    decide_eq_true within, Bool.true_and, Bool.true_and]

theorem as_eq_ofInt (a : NativeInteger) (t : IntegerType) :
    a.as t = ⟨t, .ofInt t.width a.value⟩ := by
  unfold as value
  split
  · rfl
  · rw [BitVec.ofInt_natCast, BitVec.ofNat_toNat]

theorem as_self (a : NativeInteger) : a.as a.type = a := by
  unfold as
  rw [BitVec.signExtend_eq, BitVec.setWidth_eq, ite_self]

section Widths

variable {a : NativeInteger} {t : IntegerType}

theorem as_of_le (narrow : t.width ≤ a.type.width) : a.as t = ⟨t, a.bits.setWidth t.width⟩ := by
  unfold as
  rw [BitVec.signExtend_eq_setWidth_of_le a.bits narrow, ite_self]

theorem setWidth_bits_as (wide : a.type.width ≤ t.width) :
    (a.as t).bits.setWidth a.type.width = a.bits := by
  unfold as
  cases a.type.signed with
  | true => exact setWidth_signExtend_of_le a.bits wide
  | false => exact (BitVec.setWidth_setWidth_of_le a.bits wide).trans (BitVec.setWidth_eq a.bits)

/-- Casting to a type and back leaves what the type holds of the bits. -/
theorem as_as (a : NativeInteger) (t : IntegerType) :
    (a.as t).as a.type = ⟨a.type, t.extend a.bits⟩ := by
  unfold IntegerType.extend
  split
  next wide =>
    have back : (a.as t).as a.type = ⟨a.type, (a.as t).bits.setWidth a.type.width⟩ := as_of_le wide
    rw [back, setWidth_bits_as wide]
  next narrow =>
    rw [as_of_le (Nat.le_of_not_le narrow)]
    rfl

/-- A cast keeps no more of the bits than its type holds. -/
theorem as_extend (a : NativeInteger) (t : IntegerType) :
    (mk a.type (t.extend a.bits)).as t = a.as t := by
  by_cases wide : a.type.width ≤ t.width
  · rw [IntegerType.extend, if_pos wide]
  · have held : a.type.extend (a.as t).bits = (a.as t).bits := if_pos (Nat.le_of_not_le wide)
    calc (mk a.type (t.extend a.bits)).as t = ((a.as t).as a.type).as t := by rw [as_as]
      _ = ⟨t, a.type.extend (a.as t).bits⟩ := as_as (a.as t) a.type
      _ = a.as t := congrArg (mk t) held

end Widths

end NativeInteger

/-! ## Values and items -/

/-- The value of a field as the integer that the generated code holds. -/
def Scalar.native? : Scalar → Option NativeInteger
  | int v => some ⟨⟨32, true⟩, v.toBitVec⟩
  | uint v => some ⟨⟨32, false⟩, v.toBitVec⟩
  | _ => none

/-- The integer that a writer takes or a reader returns. -/
def Item.native? : Item → Option NativeInteger
  | byte v => some ⟨⟨8, true⟩, v.toBitVec⟩
  | short v => some ⟨⟨16, true⟩, v.toBitVec⟩
  | int v => some ⟨⟨32, true⟩, v.toBitVec⟩
  | unsignedInt v => some ⟨⟨32, false⟩, v.toBitVec⟩
  | varShort v => some ⟨⟨16, true⟩, v.toBitVec⟩
  | varUnsignedShort v => some ⟨⟨16, false⟩, v.toBitVec⟩
  | varInt v => some ⟨⟨32, true⟩, v.toBitVec⟩
  | varUnsignedInt v => some ⟨⟨32, false⟩, v.toBitVec⟩
  | varLong v => some ⟨⟨64, true⟩, v.toBitVec⟩
  | varUnsignedLong v => some ⟨⟨64, false⟩, v.toBitVec⟩
  | _ => none

theorem toBitVec_ofInt_uint16 (z : Int) : (UInt16.ofInt z).toBitVec = .ofInt 16 z := by
  apply BitVec.eq_of_toNat_eq
  rw [BitVec.toNat_ofInt]
  show (UInt16.ofNat _).toNat = _
  rw [UInt16.toNat_ofNat']
  omega

theorem toBitVec_ofInt_uint32 (z : Int) : (UInt32.ofInt z).toBitVec = .ofInt 32 z := by
  apply BitVec.eq_of_toNat_eq
  rw [BitVec.toNat_ofInt]
  show (UInt32.ofNat _).toNat = _
  rw [UInt32.toNat_ofNat']
  omega

theorem toBitVec_ofInt_uint64 (z : Int) : (UInt64.ofInt z).toBitVec = .ofInt 64 z := by
  apply BitVec.eq_of_toNat_eq
  rw [BitVec.toNat_ofInt]
  show (UInt64.ofNat _).toNat = _
  rw [UInt64.toNat_ofNat']
  omega

section Integers

variable {v : Scalar} {i : Item} {p : Primitive} {m : Method} {s t : IntegerType}
  {a b : NativeInteger}

theorem Scalar.toInt_of_native? (h : v.native? = some a) (lo hi : Int) :
    v.toInt lo hi = a.value := by
  cases v <;> cases h <;> rfl

theorem Item.toInt_of_native? (h : i.native? = some b) (lo hi : Int) :
    i.toInt lo hi = b.value := by
  cases i <;> cases h <;> rfl

theorem Scalar.integer?_primitive (h : v.native? = some a) :
    v.primitive.native.integer? = some a.type := by
  cases v <;> cases h <;> rfl

theorem Scalar.native?_injective {v' : Scalar} (h : v.native? = some a) (h' : v'.native? = some a) :
    v = v' := by
  cases v with
  | int x =>
    cases h
    cases v' with
    | int y => exact congrArg int (Int32.toBitVec_inj.1 (by simpa [native?] using h'.symm))
    | uint y => simp [native?] at h'
    | _ => exact nomatch h'
  | uint x =>
    cases h
    cases v' with
    | int y => simp [native?] at h'
    | uint y => exact congrArg uint (UInt32.toBitVec_inj.1 (by simpa [native?] using h'.symm))
    | _ => exact nomatch h'
  | _ => exact nomatch h

/-- The item of a value holds the value cast to the type of the method. -/
theorem Method.native?_item (carrier : m.native.integer? = some t) (value : v.native? = some a) :
    (m.item v).native? = some (a.as t) := by
  have same := Scalar.toInt_of_native? value
  cases m <;> cases carrier <;>
    simp only [item, Item.native?, same, NativeInteger.as_eq_ofInt, toBitVec_ofInt_uint16,
      toBitVec_ofInt_uint32, toBitVec_ofInt_uint64] <;> rfl

/-- An item is cast back as the integer that it holds. -/
theorem Item.native?_cast (value : i.native? = some b) (field : p.native.integer? = some s) :
    (i.cast p).native? = some (b.as s) := by
  have same := Item.toInt_of_native? value
  rw [NativeInteger.as_eq_ofInt]
  cases p with
  | int =>
    cases field
    simp only [cast, Scalar.native?, same]
    rfl
  | uint =>
    cases field
    simp only [cast, Scalar.native?, same, toBitVec_ofInt_uint32]
  | _ => exact nomatch field

/-- Values that a method casts to one integer are one item. -/
theorem Method.item_congr {v' : Scalar} (h : (m.item v).native? = some b)
    (h' : (m.item v').native? = some b) : m.item v = m.item v' := by
  have same := h.trans h'.symm
  cases m with
  | boolean | float | double | utf => exact nomatch h
  | _ =>
    simpa only [item, Item.native?, Option.some.injEq, NativeInteger.mk.injEq, heq_eq_eq, true_and,
      Item.byte.injEq, Item.short.injEq, Item.int.injEq, Item.unsignedInt.injEq,
      Item.varShort.injEq, Item.varUnsignedShort.injEq, Item.varInt.injEq,
      Item.varUnsignedInt.injEq, Item.varLong.injEq, Item.varUnsignedLong.injEq,
      Int8.toBitVec_inj, Int16.toBitVec_inj, Int32.toBitVec_inj, Int64.toBitVec_inj,
      UInt16.toBitVec_inj, UInt32.toBitVec_inj, UInt64.toBitVec_inj] using same

end Integers

/-! ## Rendered expressions -/

/-- What a text stands for that casts an operand: the operand itself for what it holds, and a text
that casts another for what the cast makes of its value. -/
inductive Denotes (operand : String) (a : NativeInteger) : String → NativeInteger → Prop
  | operand : Denotes operand a operand a
  | cast {text : String} {b : NativeInteger} {type : NativeType} {t : IntegerType}
    (inner : Denotes operand a text b) (integer : type.integer? = some t) :
    Denotes operand a (text ++ " as " ++ type.spelling) (b.as t)

section Rendered

variable {v : Scalar} {m : Method} {p : Primitive} {s t : IntegerType} {a b : NativeInteger}

theorem denotes_castText (carrier : m.native.integer? = some t)
    (field : p.native.integer? = some a.type) (operand : String) :
    Denotes operand a (Source.castText operand m p) (a.as t) := by
  unfold Source.castText Method.castFor
  by_cases same : m.native = p.native
  · obtain rfl : t = a.type := Option.some.inj (carrier.symm.trans (same ▸ field))
    rw [if_pos same, NativeInteger.as_self]
    exact .operand
  · rw [if_neg same]
    exact .cast .operand carrier

theorem ne_string_of_integer? (field : p.native.integer? = some s) : p ≠ .string := by
  rintro rfl
  exact nomatch field

theorem denotes_placeText (carrier : m.native.integer? = some t)
    (field : p.native.integer? = some a.type) (place : String) :
    Denotes place a (Source.placeText place m p) (a.as t) := by
  unfold Source.placeText
  rw [if_neg (ne_string_of_integer? field)]
  exact denotes_castText carrier field place

theorem denotes_referenceText (carrier : m.native.integer? = some t)
    (field : p.native.integer? = some a.type) (reference : String) :
    Denotes ("*" ++ reference) a (Source.referenceText reference m p) (a.as t) := by
  unfold Source.referenceText
  rw [if_neg (ne_string_of_integer? field)]
  exact denotes_castText carrier field _

theorem denotes_readText (carrier : m.native.integer? = some b.type)
    (field : p.native.integer? = some s) :
    Denotes ("reader." ++ m.reader ++ "()?") b (Source.readText m p) (b.as s) := by
  unfold Source.readText Method.castFor
  by_cases same : m.native = p.native
  · obtain rfl : s = b.type := Option.some.inj (field.symm.trans (same ▸ carrier))
    rw [if_pos same, NativeInteger.as_self]
    exact .operand
  · rw [if_neg same]
    exact .cast .operand field

end Rendered

/-- An integer of 32 bits is carried by a method of an integer type. The argument of the writer
stands for what is written, and the expression around the reader for what the field becomes: the
value itself if the method's type is as wide, and otherwise its low bits, extended as the sign of
that type demands. The value read is written as the same bytes, and it is the one written exactly if
the extension leaves the bits as they were. -/
theorem carried_integer {m : Method} {t : IntegerType} {v : Scalar} {signed : Bool} {x : BitVec 32}
    (carrier : m.native.integer? = some t) (value : v.native? = some ⟨⟨32, signed⟩, x⟩) :
    ∃ sent xs v',
      (m.item v).native? = some sent ∧
      (∀ place, Denotes place ⟨⟨32, signed⟩, x⟩ (Source.placeText place m v.primitive) sent) ∧
      (∀ reference, Denotes ("*" ++ reference) ⟨⟨32, signed⟩, x⟩
        (Source.referenceText reference m v.primitive) sent) ∧
      Emits (m.write v) xs ∧
      Denotes ("reader." ++ m.reader ++ "()?") sent (Source.readText m v.primitive)
        ⟨⟨32, signed⟩, t.extend x⟩ ∧
      Reads (m.read v.primitive) xs v' ∧ v'.native? = some ⟨⟨32, signed⟩, t.extend x⟩ ∧
      Emits (m.write v') xs ∧ (v' = v ↔ t.extend x = x) := by
  have field := Scalar.integer?_primitive value
  have sent := Method.native?_item carrier value
  have admitted : (m.item v).refusal? = none := by
    cases m <;> first | rfl | cases carrier
  have back : ((m.item v).cast v.primitive).native? = some ⟨⟨32, signed⟩, t.extend x⟩ := by
    rw [Item.native?_cast sent field]
    exact congrArg some (NativeInteger.as_as ⟨⟨32, signed⟩, x⟩ t)
  have again : (m.item ((m.item v).cast v.primitive)).native? = some (.as ⟨⟨32, signed⟩, x⟩ t) := by
    rw [Method.native?_item carrier back]
    exact congrArg some (NativeInteger.as_extend ⟨⟨32, signed⟩, x⟩ t)
  have written : Emits (m.write v) (m.item v).spell := Item.emits_write admitted
  have read := Item.reads_shape admitted
  have expression := denotes_readText (b := .as ⟨⟨32, signed⟩, x⟩ t) carrier field
  rw [NativeInteger.as_as ⟨⟨32, signed⟩, x⟩ t] at expression
  rw [Method.shape_item] at read
  refine ⟨_, _, _, sent, denotes_placeText carrier field, denotes_referenceText carrier field,
    written, expression, read.map (·.cast v.primitive), back, ?_, ?_⟩
  · rwa [Method.write, ← Method.item_congr sent again]
  · constructor
    · intro same
      have bits := back.symm.trans (same ▸ value)
      simpa only [Option.some.injEq, NativeInteger.mk.injEq, heq_eq_eq, true_and] using bits
    · intro same
      rw [same] at back
      exact Scalar.native?_injective back value

/-- An unsigned field that is carried by a signed byte comes back with ones in front. -/
theorem carried_integer_by_byte :
    ∃ xs v', Emits (Method.byte.write (.uint 200)) xs ∧ Reads (Method.byte.read .uint) xs v' ∧
      v'.native? = some ⟨⟨32, false⟩, 0xFFFFFFC8⟩ := by
  obtain ⟨_, xs, v', -, -, -, written, -, read, back, -⟩ :=
    carried_integer (m := .byte) (t := ⟨8, true⟩) (v := .uint 200) rfl rfl
  exact ⟨xs, v', written, read, back⟩

end WireCodec
