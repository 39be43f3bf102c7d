import WireCodec.Proofs.MessageItems
import WireCodec.Proofs.Outcomes

/-!
# Sequences of items

Items that are written one after the other are read back in the same order, whatever follows them.
Conversely, the bytes from which an item is read are those that it is written as, for every shape
that leaves no choice of spelling.
-/

namespace WireCodec

variable {α β : Type}

/-! ## Reading back what was written -/

/-- Admitted items are read back from their spellings. -/
theorem reads_items {items : List Item} (h : Admitted items) :
    Reads ((items.map Item.shape).mapM ItemShape.read) (spellAll items) items := by
  induction items with
  | nil => exact reads_pure []
  | cons i items ih =>
    obtain ⟨first, others⟩ := admitted_cons.1 h
    rw [List.map_cons, List.mapM_cons, spellAll_cons]
    exact (Item.reads_shape first).bind ((ih others).bind_nil (reads_pure _))

/-! ## What was read -/

/-- When the action succeeds, `P` relates the value it gives to the bytes it has read. -/
def ReadsOnly (r : ReadM α) (P : α → List UInt8 → Prop) : Prop :=
  ∀ c a c', r c = .ok a c' → ∃ xs, P a xs ∧ c.Passes xs c'

theorem readsOnly_pure (a : α) : ReadsOnly (pure a) fun b xs => b = a ∧ xs = [] := by
  intro c b c' run
  cases run
  exact ⟨[], ⟨rfl, rfl⟩, c.passes_nil⟩

theorem readsOnly_throw (e : Fault) (P : α → List UInt8 → Prop) : ReadsOnly (throw e) P :=
  fun _ _ _ run => nomatch run

theorem ReadsOnly.bind {r : ReadM α} {k : α → ReadM β} {P : α → List UInt8 → Prop}
    {Q : α → β → List UInt8 → Prop} (h : ReadsOnly r P) (h' : ∀ a, ReadsOnly (k a) (Q a)) :
    ReadsOnly (r >>= k) fun b zs => ∃ a xs ys, P a xs ∧ Q a b ys ∧ zs = xs ++ ys := by
  intro c b c' run
  obtain ⟨a, c₁, first, second⟩ := exists_of_bind_ok run
  obtain ⟨xs, hp, passed⟩ := h c a c₁ first
  obtain ⟨ys, hq, passed'⟩ := h' a c₁ b c' second
  exact ⟨xs ++ ys, ⟨a, xs, ys, hp, hq, rfl⟩, passed.trans passed'⟩

theorem ReadsOnly.mono {r : ReadM α} {P Q : α → List UInt8 → Prop} (h : ReadsOnly r P)
    (imp : ∀ a xs, P a xs → Q a xs) : ReadsOnly r Q := by
  intro c a c' run
  obtain ⟨xs, hp, passed⟩ := h c a c' run
  exact ⟨xs, imp a xs hp, passed⟩

theorem ReadsOnly.map {r : ReadM α} {f : α → β} {P : α → List UInt8 → Prop}
    {Q : β → List UInt8 → Prop} (h : ReadsOnly r P) (imp : ∀ a xs, P a xs → Q (f a) xs) :
    ReadsOnly (f <$> r) Q := by
  rw [← bind_pure_comp]
  refine (h.bind fun a => readsOnly_pure (f a)).mono ?_
  rintro _ _ ⟨a, xs, _, hp, ⟨rfl, rfl⟩, rfl⟩
  rw [List.append_nil]
  exact imp a xs hp

theorem readsOnly_take (n : Nat) : ReadsOnly (take n) fun a xs => xs = a ∧ a.length = n := by
  intro c a c' run
  by_cases enough : n ≤ c.remaining
  · cases (run_take_of_le enough).symm.trans run
    exact ⟨_, ⟨rfl, List.length_take_of_le enough⟩, Cursor.passes_advance enough⟩
  · exact nomatch (run_take_of_lt (Nat.lt_of_not_le enough)).symm.trans run

theorem readsOnly_takeByte : ReadsOnly takeByte fun b xs => xs = [b] := by
  rintro ⟨p, _ | ⟨b, rest⟩⟩ a c' run
  · exact nomatch run
  · cases run
    exact ⟨[b], rfl, rfl, rfl⟩

/-! ## What was read is what is written -/

theorem readsOnly_takeNat (k : Nat) :
    ReadsOnly (takeNat k) fun n xs => xs = bigEndian k n ∧ n < 1 <<< (8 * k) := by
  refine (readsOnly_take k).map ?_
  rintro _ xs ⟨rfl, rfl⟩
  exact ⟨(bigEndian_ofBigEndian xs).symm, ofBigEndian_lt xs⟩

theorem readsOnly_readByte : ReadsOnly readByte fun v xs => xs = [v.toUInt8] := by
  refine readsOnly_takeByte.map ?_
  rintro b _ rfl
  rfl

theorem readsOnly_readUnsignedShort :
    ReadsOnly readUnsignedShort fun v xs => xs = bigEndian 2 v.toNat := by
  refine (readsOnly_takeNat 2).map ?_
  rintro n _ ⟨rfl, fits⟩
  rw [UInt16.toNat_ofNat_of_lt' fits]

theorem readsOnly_readShort :
    ReadsOnly readShort fun v xs => xs = bigEndian 2 v.toUInt16.toNat := by
  refine readsOnly_readUnsignedShort.map ?_
  rintro v _ rfl
  rfl

theorem readsOnly_readUnsignedInt :
    ReadsOnly readUnsignedInt fun v xs => xs = bigEndian 4 v.toNat := by
  refine (readsOnly_takeNat 4).map ?_
  rintro n _ ⟨rfl, fits⟩
  rw [UInt32.toNat_ofNat_of_lt' fits]

theorem readsOnly_readInt :
    ReadsOnly readInt fun v xs => xs = bigEndian 4 v.toUInt32.toNat := by
  refine readsOnly_readUnsignedInt.map ?_
  rintro v _ rfl
  rfl

theorem readsOnly_readFloat :
    ReadsOnly readFloat fun v xs => xs = bigEndian 4 v.bits.toNat := by
  refine readsOnly_readUnsignedInt.map ?_
  rintro v _ rfl
  rfl

theorem readsOnly_readDouble :
    ReadsOnly readDouble fun v xs => xs = bigEndian 8 v.bits.toNat := by
  refine (readsOnly_takeNat 8).map ?_
  rintro n _ ⟨rfl, fits⟩
  rw [UInt64.toNat_ofNat_of_lt' fits]

theorem readsOnly_readCount :
    ReadsOnly readCount fun n xs => n ≤ maxSize ∧ xs = bigEndian 2 n := by
  refine readsOnly_readUnsignedShort.map ?_
  rintro n _ rfl
  exact ⟨Nat.le_of_lt_succ n.toNat_lt, rfl⟩

theorem readsOnly_readUtf :
    ReadsOnly readUtf fun s xs =>
      s.utf8ByteSize ≤ maxSize ∧ xs = bigEndian 2 s.utf8ByteSize ++ utf8 s := by
  refine (readsOnly_readUnsignedShort.bind fun size =>
    (readsOnly_take size.toNat).bind (Q := fun bytes s xs => bytes = utf8 s ∧ xs = [])
      fun bytes => ?_).mono ?_
  · split
    · rename_i s decoded
      refine (readsOnly_pure s).mono ?_
      rintro _ _ ⟨rfl, rfl⟩
      exact ⟨ofUtf8?_eq_some_iff.1 decoded, rfl⟩
    · exact readsOnly_throw _ _
  · rintro s _ ⟨size, _, _, rfl, ⟨bytes, _, _, ⟨rfl, length⟩, ⟨rfl, rfl⟩, rfl⟩, rfl⟩
    rw [length_utf8] at length
    rw [List.append_nil, length]
    exact ⟨Nat.le_of_lt_succ size.toNat_lt, rfl⟩

/-- The shape leaves no choice of spelling. A boolean is read from every nonzero byte, a flag
whatever the other bits are, and a number of variable length may be spelled with more digits than it
needs. -/
def ItemShape.isExact : ItemShape → Bool
  | boolean | varShort | varUnsignedShort | varInt | varUnsignedInt | varLong | varUnsignedLong
  | flag _ => false
  | _ => true

/-- An item of an exact shape is admitted and has been read from its own spelling. -/
theorem ItemShape.readsOnly_read {shape : ItemShape} (h : shape.isExact) :
    ReadsOnly shape.read fun i xs => i.refusal? = none ∧ xs = i.spell := by
  cases shape with
  | byte => exact readsOnly_readByte.map fun _ _ spelled => ⟨rfl, spelled⟩
  | unsignedByte => exact readsOnly_takeByte.map fun _ _ spelled => ⟨rfl, spelled⟩
  | short => exact readsOnly_readShort.map fun _ _ spelled => ⟨rfl, spelled⟩
  | unsignedShort => exact readsOnly_readUnsignedShort.map fun _ _ spelled => ⟨rfl, spelled⟩
  | int => exact readsOnly_readInt.map fun _ _ spelled => ⟨rfl, spelled⟩
  | unsignedInt => exact readsOnly_readUnsignedInt.map fun _ _ spelled => ⟨rfl, spelled⟩
  | float => exact readsOnly_readFloat.map fun _ _ spelled => ⟨rfl, spelled⟩
  | double => exact readsOnly_readDouble.map fun _ _ spelled => ⟨rfl, spelled⟩
  | utf =>
    exact readsOnly_readUtf.map fun _ _ ⟨small, spelled⟩ => ⟨Item.refusal?_utf.2 small, spelled⟩
  | bytes n => exact (readsOnly_take n).map fun _ _ ⟨spelled, _⟩ => ⟨rfl, spelled⟩
  | count =>
    exact readsOnly_readCount.map fun _ _ ⟨small, spelled⟩ => ⟨Item.refusal?_count.2 small, spelled⟩
  | _ => exact nomatch h

/-! ## Both directions -/

/-- Whatever is written without a fault is read back item by item, and the reading stops behind it.
An item that is read under an exact shape is written as the bytes from which it was read. -/
theorem items_round_trip :
    (∀ (items : List Item) (out : Buffer), items.forM Item.write {} = .ok () out → ∀ rest,
      (items.map Item.shape).mapM ItemShape.read (.start (out.toList ++ rest)) =
        .ok items ⟨out.size, rest⟩) ∧
    ∀ shape : ItemShape, shape.isExact → ∀ c i c', shape.read c = .ok i c' →
      ∃ xs, c.rest = xs ++ c'.rest ∧ c'.position = c.position + xs.length ∧
        ∀ out, i.write out = .ok () (out.append xs) := by
  constructor
  · intro items out written rest
    obtain ⟨admitted, rfl⟩ := forM_write_ok_iff.1 written
    rw [Buffer.size_eq_length, Buffer.toList_append, Buffer.toList_empty, List.nil_append]
    have read := reads_items admitted 0 rest
    rwa [Nat.zero_add] at read
  · intro shape h c i c' run
    obtain ⟨_, ⟨admitted, rfl⟩, passed⟩ := shape.readsOnly_read h c i c' run
    exact ⟨i.spell, passed.1, passed.2, Item.emits_write admitted⟩

/-- A string of one two-byte character, a flag and a negative number in front of another byte; and a
string within other bytes. -/
theorem items_round_trip_greeting :
    [ItemShape.utf, .flag 3, .varInt].mapM ItemShape.read
        (.start [0, 2, 195, 169, 8, 255, 255, 255, 255, 15, 7]) =
      .ok [.utf "é", .flag 3 true, .varInt (-1)] ⟨10, [7]⟩ ∧
    ∃ xs, [0, 1, 65, 7] = xs ++ [7] ∧ 8 = 5 + xs.length ∧
      ∀ out, (Item.utf "A").write out = .ok () (out.append xs) := by
  have admitted : Admitted [.utf "é", .flag 3 true, .varInt (-1)] := by decide
  have written := emits_items admitted {}
  have bytes : spellAll [.utf "é", .flag 3 true, .varInt (-1)] =
      [0, 2, 195, 169, 8, 255, 255, 255, 255, 15] := by decide +kernel
  rw [bytes] at written
  have read := reads_readUtf (s := "A") (by decide)
  exact ⟨items_round_trip.1 _ _ written [7],
    items_round_trip.2 .utf rfl ⟨5, [0, 1, 65, 7]⟩ _ ⟨8, [7]⟩ (read.map _ 5 [7])⟩

end WireCodec
