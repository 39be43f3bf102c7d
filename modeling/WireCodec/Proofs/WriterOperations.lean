import WireCodec.Proofs.MessageItems
import WireCodec.Proofs.PacketStream

/-!
# What a failure leaves in the buffer

An operation of a writer appends all of its bytes or none (`Atomic`), and so does packing a message.
Serializing is not atomic: it ends at the first string or sequence that is too long, behind all that
precedes it on the wire (`WritesInOrder`).
-/

namespace WireCodec

/-! ## Operations -/

/-- The action appends the same bytes to every buffer, or it fails alike on every buffer and leaves
it as it was. -/
def Atomic (w : WriteM Unit) : Prop := (∃ xs, Emits w xs) ∨ ∃ e, ∀ out, w out = .error e out

/-- Writes as a packet what a serialization writes; nothing is written if it fails. -/
def packWith (id : UInt16) (serialize : WriteM Unit) : WriteM Unit := fun out =>
  match serialize {} with
  | .ok _ payload => writePacket id payload.toList out
  | .error e _ => .error e out

/-- What a writer can be asked to write. -/
inductive WriterOp
  | item (i : Item)
  | packet (id : UInt16) (payload : List UInt8)
  | pack (id : UInt16) (serialize : WriteM Unit)

def WriterOp.run : WriterOp → WriteM Unit
  | item i => i.write
  | packet id payload => writePacket id payload
  | pack id serialize => packWith id serialize

theorem Halts.atomic {w : WriteM Unit} {e : Fault} (h : Halts w e []) : Atomic w :=
  .inr ⟨e, fun out => by rw [h, out.append_nil]⟩

theorem Item.atomic_write (i : Item) : Atomic i.write := by
  cases refused : i.refusal? with
  | none => exact .inl ⟨i.spell, emits_write refused⟩
  | some e => exact (halts_write refused).atomic

theorem atomic_writePacket (id : UInt16) (payload : List UInt8) :
    Atomic (writePacket id payload) := by
  have written := Packet.writePacket_eq (id, payload)
  cases refused : Packet.refusal? (id, payload) with
  | none => exact .inl ⟨Packet.spell (id, payload), fun out => by simpa [refused] using written out⟩
  | some e => exact .inr ⟨e, fun out => by simpa [refused] using written out⟩

/-- Packing is atomic whatever the serialization does, since that has a buffer of its own. -/
theorem atomic_packWith (id : UInt16) (serialize : WriteM Unit) :
    Atomic (packWith id serialize) := by
  unfold packWith
  cases serialize {} with
  | ok _ payload => exact atomic_writePacket id payload.toList
  | error e _ => exact .inr ⟨e, fun _ => rfl⟩

theorem WriterOp.atomic_run (op : WriterOp) : Atomic op.run := by
  cases op with
  | item i => exact i.atomic_write
  | packet id payload => exact atomic_writePacket id payload
  | pack id serialize => exact atomic_packWith id serialize

/-! ## Serializations -/

/-- The item is a string or a count that is too long, and is refused for that. -/
inductive Item.TooLong : Item → Fault → Prop
  | utf {s : String} (h : maxSize < s.utf8ByteSize) :
    TooLong (.utf s) (.stringTooLong s.utf8ByteSize)
  | count {n : Nat} (h : maxSize < n) : TooLong (.count n) (.vectorTooLong n)

/-- The action writes all the items, or it fails at the first one that is too long and has then
written those before it. -/
def WritesInOrder (w : WriteM Unit) (items : List Item) : Prop :=
  Admitted items ∧ Emits w (spellAll items) ∨
    ∃ before i after e, items = before ++ i :: after ∧ Admitted before ∧ i.TooLong e ∧
      Halts w e (spellAll before)

/-- A flag has a bit of its own in its byte. -/
def Item.HasBit : Item → Prop
  | flag bit _ => bit ≤ FlagByte.maxBit
  | _ => True

theorem Item.tooLong_of_refusal? {i : Item} {e : Fault} (hasBit : i.HasBit)
    (refused : i.refusal? = some e) : i.TooLong e := by
  cases i with
  | utf s =>
    obtain ⟨long, rfl⟩ : maxSize < s.utf8ByteSize ∧ _ = e := by simpa [refusal?] using refused
    exact .utf long
  | count n =>
    obtain ⟨long, rfl⟩ : maxSize < n ∧ _ = e := by simpa [refusal?] using refused
    exact .count long
  | flag bit v => simp [refusal?_flag.2 hasBit] at refused
  | _ => simp [refusal?] at refused

theorem writesInOrder_items {items : List Item} (hasBit : ∀ i ∈ items, i.HasBit) :
    WritesInOrder (items.forM Item.write) items := by
  rcases admitted_or_refused items with h | ⟨before, i, after, e, rfl, h, refused⟩
  · exact .inl ⟨h, emits_items h⟩
  · have long := Item.tooLong_of_refusal? (hasBit i (by simp)) refused
    exact .inr ⟨before, i, after, e, rfl, h, long, halts_items h refused⟩

theorem hasBit_sequenceItems {α : Type} {each : α → List Item}
    (h : ∀ x, ∀ i ∈ each x, i.HasBit) (xs : Array α) : ∀ i ∈ sequenceItems each xs, i.HasBit := by
  rintro i (_ | ⟨_, hi⟩)
  · trivial
  · obtain ⟨x, -, hi⟩ := List.mem_flatMap.1 hi
    exact h x i hi

namespace Game

theorem Entity.hasBit_items (e : Entity) : ∀ i ∈ e.items, i.HasBit := by
  cases e <;> simp [items, Point.items, ActorInformation.items, CharacterInformation.items,
    MonsterInformation.items, Item.HasBit]

theorem ActorsMessage.hasBit_items (m : ActorsMessage) : ∀ i ∈ m.items, i.HasBit := by
  have typed (e : Entity) : ∀ i ∈ e.typedItems, i.HasBit :=
    List.forall_mem_cons.2 ⟨trivial, e.hasBit_items⟩
  have point (p : Point) : ∀ i ∈ p.items, i.HasBit := Entity.hasBit_items (.point p)
  have names : ∀ i ∈ sequenceItems (fun name => [.utf name]) m.names, i.HasBit :=
    hasBit_sequenceItems (by simp [Item.HasBit]) m.names
  simp only [items, List.forall_mem_append]
  exact ⟨point _, typed _, hasBit_sequenceItems typed _, hasBit_sequenceItems point _, names,
    by simp [Item.HasBit]⟩

theorem Message.hasBit_items (m : Message) : ∀ i ∈ m.items, i.HasBit := by
  cases m with
  | actors m => exact m.hasBit_items
  | tags m => exact hasBit_sequenceItems (by simp [Item.HasBit]) m.tags
  | _ =>
    simp +decide [items, StatusMessage.items, FlagsMessage.items, ChatMessage.items,
      ChatServerMessage.items, ChatServerCopyMessage.items, Item.HasBit]

theorem Message.atomic_pack (m : Message) : Atomic m.pack := atomic_packWith m.id m.write

theorem Message.writesInOrder (m : Message) : WritesInOrder m.write m.items := by
  rw [write_eq]
  exact writesInOrder_items m.hasBit_items

theorem Entity.writesInOrder (e : Entity) : WritesInOrder e.write e.items := by
  rw [write_eq]
  exact writesInOrder_items e.hasBit_items

/-- Every operation of a writer, the packing of a message included, appends bytes that do not depend
on the buffer or else fails and leaves the buffer as it was. A message or value is serialized item
by item, parents first and a count before the elements: if this fails, then at a string or a
sequence that is too long, and exactly what precedes it has been appended. -/
theorem atomic_and_writesInOrder :
    (∀ op : WriterOp, Atomic op.run) ∧
    (∀ m : Message, Atomic m.pack ∧ WritesInOrder m.write m.items) ∧
    ∀ e : Entity, WritesInOrder e.write e.items :=
  ⟨WriterOp.atomic_run, fun m => ⟨m.atomic_pack, m.writesInOrder⟩, Entity.writesInOrder⟩

end Game

end WireCodec
