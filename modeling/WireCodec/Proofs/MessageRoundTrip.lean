import WireCodec.Proofs.MessageItems

/-!
# Round trips of messages

A message that can be packed is read back from its packet, whatever follows. Numbers that travel as
narrower ones come back as those are extended (`Message.carried`), and values of open type come back
if the table of types has a value of their own type under their id.
-/

namespace WireCodec

/-! ## Filling from items -/

section Items

variable {α σ τ : Type}

/-- The spellings of the items make the action turn `v` into `v'`. -/
def Restores (f : FillM σ Unit) (items : List Item) (v v' : σ) : Prop :=
  Fills f (spellAll items) v v'

theorem Restores.bind {f : FillM σ Unit} {k : Unit → FillM σ Unit} {items items' : List Item}
    {v v' v'' : σ} (h : Restores f items v v') (h' : Restores (k ()) items' v' v'') :
    Restores (f >>= k) (items ++ items') v v'' := by
  unfold Restores
  rw [spellAll_append]
  exact Fills.bind h h'

theorem restores_change (f : σ → σ) (v : σ) : Restores (.change f) [] v (f v) := fills_change f v

theorem Reads.restores {r : ReadM α} {i : Item} {a : α} (h : Reads r i.spell a)
    (store : σ → α → σ) (v : σ) : Restores (.assign store r) [i] v (store v a) := by
  unfold Restores
  rw [spellAll_cons, spellAll_nil, List.append_nil]
  exact h.fills_assign store v

theorem Restores.within {f : FillM τ Unit} {items : List Item} {part : σ → τ} {v : σ} {u : τ}
    (h : Restores f items (part v) u) (store : σ → τ → σ) :
    Restores (.within part store f) items v (store v u) :=
  Fills.within h store

theorem Restores.inside {f : FillM τ Unit} {items : List Item} {u u' : τ}
    (h : Restores f items u u') (wrap : τ → σ) (v : σ) :
    Restores (.inside wrap u f) items v (wrap u') :=
  Fills.inside h wrap v

namespace SequenceField

variable (field : SequenceField σ α)

/-- A loop over elements puts them behind those already there. -/
theorem restores_extend {read : ReadM α} {each : α → List Item} {xs : Array α}
    (small : xs.size ≤ maxSize) (elements : ∀ x ∈ xs, Reads read (spellAll (each x)) x) (v : σ) :
    Restores (.extend field.push read) (sequenceItems each xs) v
      (field.set v (field.get v ++ xs)) := by
  have fills := fills_extend field.push small elements v
  rw [foldl_push, Array.toArray_toList] at fills
  unfold Restores
  rw [sequenceItems, spellAll_cons, spellAll, List.flatMap_assoc]
  exact fills

/-- A loop over elements fills an empty field. -/
theorem restores_extend_empty {read : ReadM α} {each : α → List Item} {xs : Array α} {v : σ}
    (empty : field.get v = #[]) (small : xs.size ≤ maxSize)
    (elements : ∀ x ∈ xs, Reads read (spellAll (each x)) x) :
    Restores (.extend field.push read) (sequenceItems each xs) v (field.set v xs) := by
  have := field.restores_extend small elements v
  rwa [empty, Array.empty_append] at this

end SequenceField

end Items

namespace Game

/-! ## Value types -/

theorem Point.restores_fill (p start : Point) : Restores fill p.items start p :=
  ((reads_readShort p.x).restores _ _).bind ((reads_readShort p.y).restores _ _)

theorem ActorInformation.restores_fill (a start : ActorInformation) :
    Restores fill a.items start a :=
  (reads_readDouble a.contextualId).restores _ _

theorem CharacterInformation.restores_fill {c : CharacterInformation} (h : Admitted c.items)
    (start : CharacterInformation) : Restores fill c.items start c := by
  have small := admitted_items.1 h
  exact ((c.base.restores_fill start.base).within _).bind <|
    ((reads_readUtf small).restores _ _).bind <|
    (reads_readVarUnsignedShort c.level).restores _ _

theorem MonsterInformation.restores_fill (m start : MonsterInformation) :
    Restores fill m.items start m :=
  ((m.base.restores_fill start.base).within _).bind <|
    (reads_readVarInt m.creatureId).restores _ _

namespace Entity

/-- A value is restored onto any value of its type. -/
theorem restores_fill {e start : Entity} (h : Admitted e.items) (same : start.kind = e.kind) :
    Restores fill e.items start e := by
  cases e with
  | point v =>
    cases start with
    | point u => exact (v.restores_fill u).inside point (.point u)
    | _ => exact nomatch same
  | actor v =>
    cases start with
    | actor u => exact (v.restores_fill u).inside actor (.actor u)
    | _ => exact nomatch same
  | character v =>
    cases start with
    | character u =>
      exact (CharacterInformation.restores_fill h u).inside character (.character u)
    | _ => exact nomatch same
  | monster v =>
    cases start with
    | monster u => exact (v.restores_fill u).inside monster (.monster u)
    | _ => exact nomatch same

/-- The table has a value of the type of `e` under its id. -/
def Known (types : TypeTable Entity) (e : Entity) : Prop :=
  ∃ start, types.find? e.typeId = some start ∧ start.kind = e.kind

theorem reads_readValue {types : TypeTable Entity} {e : Entity} (h : Admitted e.items)
    (known : e.Known types) : Reads (types.readValue fill) (spellAll e.typedItems) e := by
  obtain ⟨start, registered, same⟩ := known
  exact WireCodec.reads_readValue registered (restores_fill h same)

end Entity

/-! ## Messages after the way over the wire -/

/-- The message as it is read back: three numbers are carried by narrower ones. -/
def ActorsMessage.carried (m : ActorsMessage) : ActorsMessage :=
  { m with
    kamas := .ofInt64 m.kamas.toInt64, cellId := m.cellId.toInt16.toInt32,
    type := m.type.toInt8.toInt32 }

/-- The message as it is read back: the low byte of its channel, extended by sign. -/
def ChatMessage.carried (m : ChatMessage) : ChatMessage :=
  { m with channel := m.channel.toUInt8.toInt8.toInt32.toUInt32 }

def ChatServerMessage.carried (m : ChatServerMessage) : ChatServerMessage :=
  { m with base := m.base.carried }

/-- The message as it is read back: the receiver is a whole number. -/
def ChatServerCopyMessage.carried (m : ChatServerCopyMessage) : ChatServerCopyMessage :=
  { m with base := m.base.carried, receiverId := .ofInt64 m.receiverId.toInt64 }

namespace Message

/-- The message as it is read back. -/
def carried : Message → Message
  | actors m => .actors m.carried
  | chat m => .chat m.carried
  | chatServer m => .chatServer m.carried
  | chatServerCopy m => .chatServerCopy m.carried
  | m => m

@[simp] theorem kind_carried (m : Message) : m.carried.kind = m.kind := by
  cases m <;> rfl

/-- The values of open type in a message. -/
def entities : Message → List Entity
  | actors m => m.actor :: m.actors.toList
  | _ => []

end Message

/-! ## Messages -/

theorem StatusMessage.restores_fill (m start : StatusMessage) : Restores fill m.items start m :=
  (reads_readFlag (by decide) m.active).restores _ _

theorem FlagsMessage.restores_fill (m start : FlagsMessage) : Restores fill m.items start m :=
  ((reads_readFlag (by decide) m.a).restores _ _).bind <|
    ((reads_readFlag (by decide) m.b).restores _ _).bind <|
    ((reads_readFlag (by decide) m.c).restores _ _).bind <|
    ((reads_readFlag (by decide) m.overflow).restores _ _).bind <|
    (reads_readInt m.count).restores _ _

def TagsMessage.tagsField : SequenceField TagsMessage Int32 where
  get m := m.tags
  set m tags := { m with tags }

theorem TagsMessage.restores_fill {m : TagsMessage} (h : Admitted m.items) :
    Restores fill m.items {} m := by
  obtain ⟨small, -⟩ := admitted_sequenceItems.1 h
  have tag : ∀ v ∈ m.tags, Reads readInt (spellAll [.int v]) v := by
    intro v _
    simpa [Item.spell] using reads_readInt v
  exact tagsField.restores_extend_empty rfl small tag

theorem ChatMessage.restores_fill {m : ChatMessage} (h : Admitted m.items)
    (start : ChatMessage) : Restores fill m.items start m.carried := by
  have small : m.content.utf8ByteSize ≤ maxSize := Item.refusal?_utf.1 (admitted_cons.1 h).1
  exact ((reads_readUtf small).restores _ _).bind ((reads_readByte _).restores _ _)

theorem ChatServerMessage.restores_fill {m : ChatServerMessage} (h : Admitted m.items)
    (start : ChatServerMessage) : Restores fill m.items start m.carried := by
  obtain ⟨base, own⟩ := admitted_append.1 h
  have small : m.senderName.utf8ByteSize ≤ maxSize := by simpa [Item.refusal?] using own
  exact ((ChatMessage.restores_fill base start.base).within _).bind <|
    ((reads_readDouble m.senderId).restores _ _).bind <|
    (reads_readUtf small).restores _ _

theorem ChatServerCopyMessage.restores_fill {m : ChatServerCopyMessage} (h : Admitted m.items)
    (start : ChatServerCopyMessage) : Restores fill m.items start m.carried := by
  obtain ⟨base, -⟩ := admitted_append.1 h
  exact ((ChatServerMessage.restores_fill base start.base).within _).bind <|
    ((reads_readFlag (by decide) m.muted).restores _ _).bind <|
    (reads_readVarLong _).restores _ _

namespace ActorsMessage

def actorsField : SequenceField ActorsMessage Entity where
  get m := m.actors
  set m actors := { m with actors }

def pathField : SequenceField ActorsMessage Point where
  get m := m.path
  set m path := { m with path }

def namesField : SequenceField ActorsMessage String where
  get m := m.names
  set m names := { m with names }

theorem restores_fill {types : TypeTable Entity} {m : ActorsMessage} (h : Admitted m.items)
    (known : ∀ e ∈ m.actor :: m.actors.toList, e.Known types) :
    Restores (fill types) m.items {} m.carried := by
  obtain ⟨-, actor, actors, path, names, own⟩ : _ ∧ _ ∧ _ ∧ _ ∧ _ ∧ _ := by
    simpa only [items, admitted_append] using h
  obtain ⟨start, registered, same⟩ := known m.actor List.mem_cons_self
  obtain ⟨fewActors, eachActor⟩ := admitted_sequenceItems.1 actors
  obtain ⟨fewPoints, -⟩ := admitted_sequenceItems.1 path
  obtain ⟨fewNames, eachName⟩ := admitted_sequenceItems.1 names
  have label : m.label.utf8ByteSize ≤ maxSize := Item.refusal?_utf.1 (admitted_cons.1 own).1
  have actor := Entity.restores_fill (Entity.admitted_typedItems.1 actor) same
  have element : ∀ e ∈ m.actors, Reads (types.readValue Entity.fill) (spellAll e.typedItems) e :=
    fun e he => Entity.reads_readValue (Entity.admitted_typedItems.1 (eachActor e he))
      (known e (List.mem_cons_of_mem _ (Array.mem_toList_iff.2 he)))
  have point : ∀ p ∈ m.path, Reads (FillM.fresh {} Point.fill) (spellAll p.items) p :=
    fun p _ => Fills.fresh (p.restores_fill {})
  have name : ∀ s ∈ m.names, Reads readUtf (spellAll [.utf s]) s := by
    intro s hs
    have small : s.utf8ByteSize ≤ maxSize := by simpa using eachName s hs
    simpa [Item.spell] using reads_readUtf small
  exact (restores_change _ _).bind <|
    ((m.origin.restores_fill _).within _).bind <|
    ((reads_readInstance registered).restores (i := .unsignedShort _) _ _).bind <|
    (actor.within _).bind <|
    (actorsField.restores_extend_empty rfl fewActors element).bind <|
    (pathField.restores_extend_empty rfl fewPoints point).bind <|
    (namesField.restores_extend_empty rfl fewNames name).bind <|
    ((reads_readUtf label).restores (i := .utf _) _ _).bind <|
    ((reads_readVarLong _).restores (i := .varLong _) _ _).bind <|
    ((reads_readVarShort _).restores (i := .varShort _) _ _).bind <|
    ((reads_readDouble _).restores (i := .double _) _ _).bind <|
    (reads_readByte _).restores (i := .byte _) _ _

end ActorsMessage

namespace Message

variable {types : TypeTable Entity} {m : Message}

theorem restores_fill (h : Admitted m.items) (known : ∀ e ∈ m.entities, e.Known types) :
    Restores (fill types) m.items m.kind.fresh m.carried := by
  cases m with
  | ping m => exact (fills_pure m).inside ping (.ping {})
  | status m => exact (m.restores_fill {}).inside status (.status {})
  | flags m => exact (m.restores_fill {}).inside flags (.flags {})
  | tags m => exact (TagsMessage.restores_fill h).inside tags (.tags {})
  | actors m => exact (ActorsMessage.restores_fill h known).inside actors (.actors {})
  | chat m => exact (ChatMessage.restores_fill h {}).inside chat (.chat {})
  | chatServer m => exact (ChatServerMessage.restores_fill h {}).inside chatServer (.chatServer {})
  | chatServerCopy m =>
    exact (ChatServerCopyMessage.restores_fill h {}).inside chatServerCopy (.chatServerCopy {})

theorem find?_messages (k : MessageKind) : messages.find? k.id = some k.fresh := by
  cases k <;> rfl

/-- The packet of a message is read back, whatever follows. -/
theorem decode_packet (h : Admitted m.items)
    (small : (spellAll m.items).length ≤ Packet.maxPayload)
    (known : ∀ e ∈ m.entities, e.Known types) (rest : List UInt8) :
    messages.decode (fill types) (m.packet ++ rest) = .ok m.carried :=
  MessageTable.decode_packet (find?_messages m.kind) m.kind.id_le small (restores_fill h known) rest

end Message

/-- A message that can be packed is decoded from its packet as a message of its kind, whatever
follows, if every value of open type in it has its type registered under its id. -/
theorem decode_pack {types : TypeTable Entity} {m : Message} {out : Buffer}
    (packed : m.pack {} = .ok () out)
    (known : ∀ e ∈ m.entities, ∃ start, types.find? e.typeId = some start ∧ start.kind = e.kind)
    (rest : List UInt8) :
    messages.decode (Message.fill types) (out.toList ++ rest) = .ok m.carried ∧
      m.carried.kind = m.kind ∧ m.carried.id = m.id := by
  obtain ⟨admitted, small, rfl⟩ := Message.pack_ok_iff.1 packed
  refine ⟨?_, m.kind_carried, congrArg MessageKind.id m.kind_carried⟩
  rw [Buffer.toList_append, Buffer.toList_empty, List.nil_append]
  exact Message.decode_packet admitted small known rest

/-- The cell loses its high bits, the type keeps its sign, and `1.5` becomes `1.0`. -/
theorem decode_pack_actors :
    ∃ out, (Message.actors {
        actor := .monster { creatureId := -1 }, actors := #[.point { x := 3 }], names := #["é"],
        kamas := ⟨0x3FF8000000000000⟩, cellId := 65535, type := 200 }).pack {} = .ok () out ∧
      messages.decode (Message.fill Entity.types) (out.toList ++ [1]) = .ok (.actors {
        actor := .monster { creatureId := -1 }, actors := #[.point { x := 3 }], names := #["é"],
        kamas := ⟨0x3FF0000000000000⟩, cellId := -1, type := -56 }) := by
  have packed := Message.emits_pack (m := .actors {
    actor := .monster { creatureId := -1 }, actors := #[.point { x := 3 }], names := #["é"],
    kamas := ⟨0x3FF8000000000000⟩, cellId := 65535, type := 200 })
    (by decide +kernel) (by decide +kernel) {}
  refine ⟨_, packed, (decode_pack packed ?_ [1]).1.trans (congrArg Except.ok ?_)⟩
  · decide +kernel
  · decide +kernel

end Game

end WireCodec
