import WireCodec.Proofs.WriterOperations

/-!
# Sizes that the wire refuses

A message is refused for its strings and sequences only: a prefix of two bytes holds the size of
each of them (`Extent`). The first one on the wire that is too long decides the fault, whether the
message is serialized or packed, and a sequence counts before its elements. A message without such a
string or sequence is serialized, and packed unless its payload is too large for a packet
(`Message.serialized_or_refused`).
-/

namespace WireCodec

/-! ## Extents -/

/-- A string or a sequence, by the size that is written in front of it. -/
inductive Extent
  | string (size : Nat)
  | vector (count : Nat)
  deriving DecidableEq, Repr

namespace Extent

def size : Extent → Nat
  | string size => size
  | vector count => count

/-- The fault that reports the size. -/
def fault : Extent → Fault
  | string size => .stringTooLong size
  | vector count => .vectorTooLong count

/-- The size does not fit the two bytes in front. -/
def isTooLong (e : Extent) : Bool := maxSize < e.size

theorem isTooLong_eq_false_iff {e : Extent} : e.isTooLong = false ↔ e.size ≤ maxSize := by
  rw [isTooLong, decide_eq_false_iff_not, Nat.not_lt]

/-- The extent of a string is the number of its UTF-8 bytes. -/
def ofString (s : String) : Extent := .string s.utf8ByteSize

/-- The extents of a sequence: its own and then those of each element. -/
def ofSequence {α : Type} (each : α → List Extent) (xs : Array α) : List Extent :=
  .vector xs.size :: xs.toList.flatMap each

theorem find?_eq_none_iff {es : List Extent} :
    es.find? isTooLong = none ↔ ∀ e ∈ es, e.size ≤ maxSize := by
  simp only [List.find?_eq_none, Bool.not_eq_true, isTooLong_eq_false_iff]

end Extent

/-! ## Extents of items -/

/-- The extent of an item that is a string or the count of a sequence. -/
def Item.extent? : Item → Option Extent
  | utf s => some (.ofString s)
  | count n => some (.vector n)
  | _ => none

theorem Item.size_le_of_extent? {i : Item} {e : Extent} (h : i.refusal? = none)
    (extent : i.extent? = some e) : e.size ≤ maxSize := by
  cases i with
  | utf s =>
    cases extent
    exact refusal?_utf.1 h
  | count n =>
    cases extent
    exact refusal?_count.1 h
  | _ => exact nomatch extent

theorem Item.TooLong.exists_extent? {i : Item} {fault : Fault} (h : i.TooLong fault) :
    ∃ e, i.extent? = some e ∧ e.isTooLong ∧ e.fault = fault := by
  cases h with
  | utf large => exact ⟨_, rfl, decide_eq_true large, rfl⟩
  | count large => exact ⟨_, rfl, decide_eq_true large, rfl⟩

/-- The extents of items in the order of the wire. -/
def extentsOf (items : List Item) : List Extent := items.filterMap Item.extent?

@[simp] theorem extentsOf_append (items items' : List Item) :
    extentsOf (items ++ items') = extentsOf items ++ extentsOf items' :=
  List.filterMap_append

theorem extentsOf_sequenceItems {α : Type} {each : α → List Item} {extents : α → List Extent}
    (h : ∀ x, extentsOf (each x) = extents x) (xs : Array α) :
    extentsOf (sequenceItems each xs) = Extent.ofSequence extents xs := by
  have elements : extentsOf (xs.toList.flatMap each) = xs.toList.flatMap extents := by
    rw [extentsOf, List.filterMap_flatMap]
    exact congrArg (xs.toList.flatMap ·) (funext h)
  rw [Extent.ofSequence, ← elements]
  rfl

theorem find?_extentsOf_of_admitted {items : List Item} (h : Admitted items) :
    (extentsOf items).find? Extent.isTooLong = none := by
  rw [Extent.find?_eq_none_iff]
  intro e he
  obtain ⟨i, hi, extent⟩ := List.mem_filterMap.1 he
  exact Item.size_le_of_extent? (h i hi) extent

/-- Behind admitted items, one that is too long is the first. -/
theorem find?_extentsOf_of_tooLong {before after : List Item} {i : Item} {fault : Fault}
    (h : Admitted before) (tooLong : i.TooLong fault) :
    ∃ e, (extentsOf (before ++ i :: after)).find? Extent.isTooLong = some e ∧
      e.fault = fault := by
  obtain ⟨e, extent, large, fault⟩ := tooLong.exists_extent?
  refine ⟨e, ?_, fault⟩
  rw [extentsOf_append, List.find?_append, find?_extentsOf_of_admitted h, Option.none_or, extentsOf,
    List.filterMap_cons_some extent, List.find?_cons_of_pos large]

namespace Game

/-! ## Extents of messages -/

/-- Among the values of open type only a character has a string. -/
def Entity.extents : Entity → List Extent
  | character v => [.ofString v.name]
  | _ => []

/-- A point has none, and its sequence only that of its count. -/
def ActorsMessage.extents (m : ActorsMessage) : List Extent :=
  m.actor.extents ++ Extent.ofSequence Entity.extents m.actors ++
    Extent.ofSequence (fun _ => []) m.path ++ Extent.ofSequence (fun name => [.ofString name]) m.names ++
    [.ofString m.label]

def ChatMessage.extents (m : ChatMessage) : List Extent := [.ofString m.content]

def ChatServerMessage.extents (m : ChatServerMessage) : List Extent :=
  m.base.extents ++ [.ofString m.senderName]

/-- The strings and sequences of a message in the order of the wire. -/
def Message.extents : Message → List Extent
  | ping _ => []
  | status _ => []
  | flags _ => []
  | tags m => Extent.ofSequence (fun _ => []) m.tags
  | actors m => m.extents
  | chat m => m.extents
  | chatServer m => m.extents
  | chatServerCopy m => m.base.extents

theorem Entity.extentsOf_items (e : Entity) : extentsOf e.items = e.extents := by
  cases e <;> rfl

theorem Entity.extentsOf_typedItems (e : Entity) : extentsOf e.typedItems = e.extents :=
  e.extentsOf_items

theorem ActorsMessage.extentsOf_items (m : ActorsMessage) : extentsOf m.items = m.extents := by
  have actors := extentsOf_sequenceItems Entity.extentsOf_typedItems m.actors
  have point : ∀ p : Point, extentsOf p.items = [] := fun _ => rfl
  have name : ∀ name, extentsOf [.utf name] = [.ofString name] := fun _ => rfl
  have path := extentsOf_sequenceItems point m.path
  have names := extentsOf_sequenceItems name m.names
  simp only [items, extents, extentsOf_append, actors, path, names, m.actor.extentsOf_typedItems,
    List.append_assoc]
  rfl

theorem Message.extentsOf_items (m : Message) : extentsOf m.items = m.extents := by
  cases m with
  | actors m => exact m.extentsOf_items
  | tags m => exact extentsOf_sequenceItems (fun _ => rfl) m.tags
  | _ => rfl

/-! ## Outcomes -/

namespace Message

variable {m : Message}

theorem find?_extents_of_admitted (h : Admitted m.items) :
    m.extents.find? Extent.isTooLong = none := by
  rw [← extentsOf_items]
  exact find?_extentsOf_of_admitted h

/-- A message that is refused somewhere is refused for the first of its extents that is too long. -/
theorem exists_find?_extents {before after : List Item} {i : Item} {fault : Fault}
    (split : m.items = before ++ i :: after) (h : Admitted before) (tooLong : i.TooLong fault) :
    ∃ e, m.extents.find? Extent.isTooLong = some e ∧ e.fault = fault := by
  rw [← extentsOf_items, split]
  exact find?_extentsOf_of_tooLong h tooLong

theorem halts_write_refused {before after : List Item} {i : Item} {fault : Fault}
    (split : m.items = before ++ i :: after) (h : Admitted before)
    (refused : i.refusal? = some fault) : Halts m.write fault (spellAll before) := by
  rw [write_eq, split]
  exact halts_items h refused

theorem pack_of_admitted (h : Admitted m.items) (out : Buffer) :
    m.pack out =
      if Packet.maxPayload < (spellAll m.items).length then
        .error (.payloadTooLarge (spellAll m.items).length) out
      else .ok () (out.append m.packet) := by
  split
  next large => rw [halts_pack_payload h large, Buffer.append_nil]
  next small => exact emits_pack h (Nat.le_of_not_lt small) out

/-- A message is serialized exactly if every string and sequence in it fits its prefix. If not, the
first one on the wire that is too long is the fault of serializing and of packing. If so, packing
fails only for a payload that is too large. -/
theorem serialized_or_refused (m : Message) (out : Buffer) :
    ((∃ out', m.write out = .ok () out') ↔ ∀ e ∈ m.extents, e.size ≤ maxSize) ∧
    match m.extents.find? Extent.isTooLong with
    | some e => (∃ out', m.write out = .error e.fault out') ∧ m.pack out = .error e.fault out
    | none => ∃ payload, m.write {} = .ok () payload ∧
      m.pack out =
        if Packet.maxPayload < payload.size then .error (.payloadTooLarge payload.size) out
        else .ok () (out.append m.packet) := by
  rw [← Extent.find?_eq_none_iff]
  rcases admitted_or_refused m.items with h | ⟨before, i, after, fault, split, h, refused⟩
  · rw [find?_extents_of_admitted h]
    have payload : (Buffer.append {} (spellAll m.items)).size = (spellAll m.items).length := by
      simp [Buffer.size_eq_length]
    refine ⟨⟨fun _ => rfl, fun _ => ⟨_, emits_write h out⟩⟩, _, emits_write h {}, ?_⟩
    rw [payload]
    exact pack_of_admitted h out
  · have here : i ∈ m.items := by simp [split]
    have tooLong := Item.tooLong_of_refusal? (m.hasBit_items i here) refused
    obtain ⟨e, first, rfl⟩ := exists_find?_extents split h tooLong
    have failed := halts_write_refused split h refused out
    simp only [first, failed]
    refine ⟨by simp, ⟨_, rfl⟩, ?_⟩
    rw [halts_pack_refused split h refused, Buffer.append_nil]

end Message

end Game

end WireCodec
