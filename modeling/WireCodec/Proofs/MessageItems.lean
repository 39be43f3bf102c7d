import WireCodec.Game.Message
import WireCodec.Proofs.Packet

/-!
# Messages as lists of items

A message or a value type is written item by item (`Message.items`), parents first. It is written
if every item is admitted (`Admitted`), as the spellings of its items; otherwise the items before
the first refused one are written, and its refusal is the fault.
-/

namespace WireCodec

/-! ## Lists of items -/

/-- The bytes of a list of items. -/
def spellAll (items : List Item) : List UInt8 := items.flatMap Item.spell

@[simp] theorem spellAll_nil : spellAll [] = [] := rfl

@[simp] theorem spellAll_cons (i : Item) (items : List Item) :
    spellAll (i :: items) = i.spell ++ spellAll items :=
  List.flatMap_cons

@[simp] theorem spellAll_append (items items' : List Item) :
    spellAll (items ++ items') = spellAll items ++ spellAll items' :=
  List.flatMap_append

/-- The wire admits every item. -/
def Admitted (items : List Item) : Prop := ∀ i ∈ items, i.refusal? = none

instance (items : List Item) : Decidable (Admitted items) :=
  List.decidableBAll (fun i : Item => i.refusal? = none) items

@[simp] theorem admitted_nil : Admitted [] := by simp [Admitted]

@[simp] theorem admitted_cons {i : Item} {items : List Item} :
    Admitted (i :: items) ↔ i.refusal? = none ∧ Admitted items :=
  List.forall_mem_cons

@[simp] theorem admitted_append {items items' : List Item} :
    Admitted (items ++ items') ↔ Admitted items ∧ Admitted items' :=
  List.forall_mem_append

theorem emits_items {items : List Item} (h : Admitted items) :
    Emits (items.forM Item.write) (spellAll items) :=
  emits_forM fun i hi => Item.emits_write (h i hi)

/-- What stands before the first refused item is written. -/
theorem halts_items {before after : List Item} {i : Item} {e : Fault} (h : Admitted before)
    (refused : i.refusal? = some e) :
    Halts ((before ++ i :: after).forM Item.write) e (spellAll before) := by
  have last : Halts ((i :: after).forM Item.write) e [] := (Item.halts_write refused).bind
  rw [List.forM_eq_forM, List.forM_append, ← List.append_nil (spellAll before)]
  exact (emits_items h).bind_halts last

/-- Either every item is admitted or there is a first one that is refused. -/
theorem admitted_or_refused (items : List Item) :
    Admitted items ∨ ∃ before i after e,
      items = before ++ i :: after ∧ Admitted before ∧ i.refusal? = some e := by
  induction items with
  | nil => exact .inl admitted_nil
  | cons i items ih =>
    cases refused : i.refusal? with
    | some e => exact .inr ⟨[], i, items, e, rfl, admitted_nil, refused⟩
    | none =>
      rcases ih with all | ⟨before, j, after, e, rfl, admitted, refused'⟩
      · exact .inl (admitted_cons.2 ⟨refused, all⟩)
      · exact .inr ⟨i :: before, j, after, e, rfl, admitted_cons.2 ⟨refused, admitted⟩, refused'⟩

/-- Items are written exactly if they are admitted. -/
theorem forM_write_ok_iff {items : List Item} {out out' : Buffer} :
    items.forM Item.write out = .ok () out' ↔
      Admitted items ∧ out' = out.append (spellAll items) := by
  constructor
  · intro written
    rcases admitted_or_refused items with h | ⟨before, i, after, e, rfl, h, refused⟩
    · rw [emits_items h] at written
      cases written
      exact ⟨h, rfl⟩
    · rw [halts_items h refused] at written
      exact nomatch written
  · rintro ⟨h, rfl⟩
    exact emits_items h out

/-- The items of a sequence: its count and then those of each element. -/
def sequenceItems {α : Type} (each : α → List Item) (xs : Array α) : List Item :=
  .count xs.size :: xs.toList.flatMap each

theorem writeSequence_eq {α : Type} {write : α → WriteM Unit} {each : α → List Item}
    (h : ∀ x, write x = (each x).forM Item.write) (xs : Array α) :
    writeSequence write xs = (sequenceItems each xs).forM Item.write := by
  have elements : ∀ ys : List α, ys.forM write = (ys.flatMap each).forM Item.write := by
    intro ys
    induction ys with
    | nil => rfl
    | cons y ys ih =>
      simp only [List.forM_eq_forM, List.forM_cons, List.flatMap_cons, List.forM_append] at *
      rw [h y, ih]
  rw [writeSequence, elements]
  rfl

theorem admitted_sequenceItems {α : Type} {each : α → List Item} {xs : Array α} :
    Admitted (sequenceItems each xs) ↔ xs.size ≤ maxSize ∧ ∀ x ∈ xs, Admitted (each x) := by
  rw [sequenceItems, admitted_cons, Item.refusal?_count]
  refine and_congr_right fun _ => ⟨fun h x hx i hi => ?_, fun h i hi => ?_⟩
  · exact h i (List.mem_flatMap.2 ⟨x, Array.mem_toList_iff.2 hx, hi⟩)
  · obtain ⟨x, hx, hi⟩ := List.mem_flatMap.1 hi
    exact h x (Array.mem_toList_iff.1 hx) i hi

namespace Game

/-! ## Value types -/

def Point.items (p : Point) : List Item := [.short p.x, .short p.y]

def ActorInformation.items (a : ActorInformation) : List Item := [.double a.contextualId]

def CharacterInformation.items (c : CharacterInformation) : List Item :=
  c.base.items ++ [.utf c.name, .varUnsignedShort c.level]

def MonsterInformation.items (m : MonsterInformation) : List Item :=
  m.base.items ++ [.varInt m.creatureId]

namespace Entity

def items : Entity → List Item
  | point v => v.items
  | actor v => v.items
  | character v => v.items
  | monster v => v.items

/-- The items of a value of open type. -/
def typedItems (e : Entity) : List Item := .unsignedShort e.typeId :: e.items

end Entity

theorem Point.write_eq (p : Point) : p.write = p.items.forM Item.write := by
  simp [write, items, Item.write]

theorem ActorInformation.write_eq (a : ActorInformation) : a.write = a.items.forM Item.write := by
  simp [write, items, Item.write]

theorem CharacterInformation.write_eq (c : CharacterInformation) :
    c.write = c.items.forM Item.write := by
  simp [write, items, Item.write, ActorInformation.write_eq]

theorem MonsterInformation.write_eq (m : MonsterInformation) :
    m.write = m.items.forM Item.write := by
  simp [write, items, Item.write, ActorInformation.write_eq]

namespace Entity

theorem write_eq (e : Entity) : e.write = e.items.forM Item.write := by
  cases e with
  | point v => exact v.write_eq
  | actor v => exact v.write_eq
  | character v => exact v.write_eq
  | monster v => exact v.write_eq

theorem writeTyped_eq (e : Entity) : e.writeTyped = e.typedItems.forM Item.write := by
  simp [writeTyped, typedItems, Item.write, write_eq]

end Entity

@[simp] theorem Point.admitted_items (p : Point) : Admitted p.items := by
  simp [items, Item.refusal?]

@[simp] theorem ActorInformation.admitted_items (a : ActorInformation) : Admitted a.items := by
  simp [items, Item.refusal?]

@[simp] theorem MonsterInformation.admitted_items (m : MonsterInformation) : Admitted m.items := by
  simp [items, Item.refusal?]

theorem CharacterInformation.admitted_items {c : CharacterInformation} :
    Admitted c.items ↔ c.name.utf8ByteSize ≤ maxSize := by
  simp [items, Item.refusal?]

theorem Entity.admitted_typedItems {e : Entity} : Admitted e.typedItems ↔ Admitted e.items := by
  simp [typedItems, Item.refusal?]

/-! ## Messages -/

def StatusMessage.items (m : StatusMessage) : List Item := [.flag 0 m.active]

def FlagsMessage.items (m : FlagsMessage) : List Item :=
  [.flag 0 m.a, .flag 1 m.b, .flag 2 m.c, .flag 1 m.overflow, .int m.count]

def TagsMessage.items (m : TagsMessage) : List Item := sequenceItems (fun tag => [.int tag]) m.tags

def ActorsMessage.items (m : ActorsMessage) : List Item :=
  m.origin.items ++ (m.actor.typedItems ++ (sequenceItems Entity.typedItems m.actors ++
    (sequenceItems Point.items m.path ++ (sequenceItems (fun name => [.utf name]) m.names ++
      [.utf m.label, .varLong m.kamas.toInt64, .varShort m.cellId.toInt16, .double m.mapId,
        .byte m.type.toInt8]))))

def ChatMessage.items (m : ChatMessage) : List Item :=
  [.utf m.content, .byte m.channel.toUInt8.toInt8]

def ChatServerMessage.items (m : ChatServerMessage) : List Item :=
  m.base.items ++ [.double m.senderId, .utf m.senderName]

def ChatServerCopyMessage.items (m : ChatServerCopyMessage) : List Item :=
  m.base.items ++ [.flag 0 m.muted, .varLong m.receiverId.toInt64]

@[simp] theorem StatusMessage.admitted_items (m : StatusMessage) : Admitted m.items := by
  simp [items, Item.refusal?]

@[simp] theorem FlagsMessage.admitted_items (m : FlagsMessage) : Admitted m.items := by
  simp [items, Item.refusal?, FlagByte.maxBit]

theorem ActorsMessage.write_eq (m : ActorsMessage) : m.write = m.items.forM Item.write := by
  have actors := writeSequence_eq Entity.writeTyped_eq m.actors
  have path := writeSequence_eq Point.write_eq m.path
  have name : ∀ s, writeUtf s = [Item.utf s].forM Item.write := by simp [Item.write]
  have names := writeSequence_eq name m.names
  simp [write, items, Item.write, Point.write_eq, Entity.writeTyped_eq, actors, path, names]

theorem ChatMessage.write_eq (m : ChatMessage) : m.write = m.items.forM Item.write := by
  simp [write, items, Item.write]

theorem ChatServerMessage.write_eq (m : ChatServerMessage) :
    m.write = m.items.forM Item.write := by
  simp [write, items, Item.write, ChatMessage.write_eq]

theorem ChatServerCopyMessage.write_eq (m : ChatServerCopyMessage) :
    m.write = m.items.forM Item.write := by
  simp [write, items, Item.write, ChatServerMessage.write_eq]

theorem MessageKind.id_le (k : MessageKind) : k.id ≤ Packet.maxMessageId := by
  cases k <;> decide

namespace Message

def items : Message → List Item
  | ping _ => []
  | status m => m.items
  | flags m => m.items
  | tags m => m.items
  | actors m => m.items
  | chat m => m.items
  | chatServer m => m.items
  | chatServerCopy m => m.items

theorem write_eq (m : Message) : m.write = m.items.forM Item.write := by
  cases m with
  | ping m => rfl
  | status m => simp [write, items, StatusMessage.write, StatusMessage.items, Item.write]
  | flags m => simp [write, items, FlagsMessage.write, FlagsMessage.items, Item.write]
  | tags m =>
    have tag : ∀ v, writeInt v = [Item.int v].forM Item.write := by simp [Item.write]
    exact writeSequence_eq tag m.tags
  | actors m => exact m.write_eq
  | chat m => exact m.write_eq
  | chatServer m => exact m.write_eq
  | chatServerCopy m => exact m.write_eq

/-! ## Packets of messages -/

/-- The bytes of a message's packet. -/
def packet (m : Message) : List UInt8 :=
  Packet.headerBytes m.id (spellAll m.items).length ++ spellAll m.items

variable {m : Message}

theorem emits_write (h : Admitted m.items) : Emits m.write (spellAll m.items) := by
  rw [write_eq]
  exact emits_items h

/-- A message is written exactly if its items are admitted. -/
theorem write_ok_iff {out out' : Buffer} :
    m.write out = .ok () out' ↔ Admitted m.items ∧ out' = out.append (spellAll m.items) := by
  rw [write_eq]
  exact forM_write_ok_iff

theorem emits_pack (h : Admitted m.items)
    (small : (spellAll m.items).length ≤ Packet.maxPayload) : Emits m.pack m.packet := by
  intro out
  rw [pack, emits_write h]
  simp only [Buffer.toList_append, Buffer.toList_empty, List.nil_append]
  exact emits_writePacket m.kind.id_le small out

theorem halts_pack_payload (h : Admitted m.items)
    (large : Packet.maxPayload < (spellAll m.items).length) :
    Halts m.pack (.payloadTooLarge (spellAll m.items).length) [] := by
  intro out
  rw [pack, emits_write h]
  simp only [Buffer.toList_append, Buffer.toList_empty, List.nil_append]
  exact halts_writePacket_payload m.kind.id_le large out

/-- Nothing is written of a message with an item that is refused. -/
theorem halts_pack_refused {before after : List Item} {i : Item} {e : Fault}
    (split : m.items = before ++ i :: after) (h : Admitted before) (refused : i.refusal? = some e) :
    Halts m.pack e [] := by
  intro out
  rw [pack, write_eq, split, halts_items h refused]
  exact halts_throw e out

/-- A message is packed exactly if its items are admitted and make a payload of admitted length. -/
theorem pack_ok_iff {out out' : Buffer} :
    m.pack out = .ok () out' ↔ Admitted m.items ∧
      (spellAll m.items).length ≤ Packet.maxPayload ∧ out' = out.append m.packet := by
  constructor
  · intro packed
    rcases admitted_or_refused m.items with h | ⟨before, i, after, e, split, h, refused⟩
    · by_cases small : (spellAll m.items).length ≤ Packet.maxPayload
      · rw [emits_pack h small] at packed
        cases packed
        exact ⟨h, small, rfl⟩
      · rw [halts_pack_payload h (Nat.lt_of_not_le small)] at packed
        exact nomatch packed
    · rw [halts_pack_refused split h refused] at packed
      exact nomatch packed
  · rintro ⟨h, small, rfl⟩
    exact emits_pack h small out

end Message

end Game

end WireCodec
