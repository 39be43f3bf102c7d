import WireCodec.Proofs.MessageRoundTrip
import WireCodec.Proofs.Outcomes
import WireCodec.Proofs.Rounding

/-!
# Repacking what was decoded

A decoded message is settled: whatever bytes it came from, the way over the wire no longer changes
it, the wire admits every item of it, and its values of open type are of types that are registered
under their ids. So it is packed unless its payload is too long, and its packet decodes to it.
-/

namespace WireCodec.Game

/-! ## Values of open type -/

theorem CharacterInformation.ends_fill (start : CharacterInformation) :
    Ends fill start fun c => Admitted c.items := by
  refine ((ends_true _ _).within _).bind ?_
  rintro _ ⟨base, -, rfl⟩
  refine (yields_readUtf.ends_assign _ _).bind ?_
  rintro _ ⟨name, small, rfl⟩
  refine ((yields_true _).ends_assign _ _).mono ?_
  rintro _ ⟨level, -, rfl⟩
  exact CharacterInformation.admitted_items.2 small

namespace Entity

/-- Filling a value does not change its type. -/
theorem ends_fill (start : Entity) :
    Ends fill start fun e => e.kind = start.kind ∧ Admitted e.items := by
  cases start with
  | point u =>
    refine (ends_true Point.fill u).wrapped point ?_ ?_
    · exact fun _ => rfl
    · exact fun v _ => ⟨rfl, v.admitted_items⟩
  | actor u =>
    refine (ends_true ActorInformation.fill u).wrapped actor ?_ ?_
    · exact fun _ => rfl
    · exact fun v _ => ⟨rfl, v.admitted_items⟩
  | character u =>
    refine u.ends_fill.wrapped character ?_ ?_
    · exact fun _ => rfl
    · exact fun _ admitted => ⟨rfl, admitted⟩
  | monster u =>
    refine (ends_true MonsterInformation.fill u).wrapped monster ?_ ?_
    · exact fun _ => rfl
    · exact fun v _ => ⟨rfl, v.admitted_items⟩

/-- The wire admits the value, and its type is registered under its id. -/
def Settled (types : TypeTable Entity) (e : Entity) : Prop := Admitted e.items ∧ e.Known types

section Table

variable {types : TypeTable Entity} (honest : ∀ id start, types.find? id = some start →
  start.typeId = id)

include honest

theorem ends_fill_registered {id : UInt16} {start : Entity}
    (registered : types.find? id = some start) : Ends fill start (Settled types) := by
  refine start.ends_fill.mono fun e ⟨same, admitted⟩ => ⟨admitted, start, ?_, same.symm⟩
  rw [typeId, same, ← typeId, honest id start registered, registered]

theorem yields_readValue : Yields (types.readValue fill) (Settled types) :=
  WireCodec.yields_readValue fun _ _ registered => ends_fill_registered honest registered

end Table

end Entity

/-! ## Messages -/

/-- The way over the wire does not change the message, and the wire admits it. -/
structure Message.Settled (types : TypeTable Entity) (m : Message) : Prop where
  carried : m.carried = m
  admitted : Admitted m.items
  known : ∀ e ∈ m.entities, e.Known types

theorem TagsMessage.ends_fill : Ends fill {} fun m => Admitted m.items := by
  refine ((tagsField.ends_extend (yields_true readInt)) {}).mono ?_
  rintro _ ⟨tags, small, -, rfl⟩
  refine admitted_sequenceItems.2 ⟨?_, by simp [Item.refusal?]⟩
  simpa [tagsField] using small

/-- A byte extended to four bytes is their low byte. -/
theorem toInt8_extended (c : Int8) : c.toInt32.toUInt32.toUInt8.toInt8 = c := by
  apply Int8.toBitVec_inj.1
  ext i hi
  simp [hi, BitVec.getLsbD_signExtend]
  omega

theorem ChatMessage.ends_fill (start : ChatMessage) :
    Ends fill start fun m => m.carried = m ∧ Admitted m.items := by
  refine (yields_readUtf.ends_assign _ _).bind ?_
  rintro _ ⟨content, small, rfl⟩
  refine ((yields_true _).ends_assign _ _).mono ?_
  rintro _ ⟨channel, -, rfl⟩
  refine ⟨?_, by simpa [items, Item.refusal?] using small⟩
  rw [carried, toInt8_extended]

theorem ChatServerMessage.ends_fill (start : ChatServerMessage) :
    Ends fill start fun m => m.carried = m ∧ Admitted m.items := by
  refine ((ChatMessage.ends_fill _).within _).bind ?_
  rintro _ ⟨base, ⟨same, admitted⟩, rfl⟩
  refine ((yields_true _).ends_assign _ _).bind ?_
  rintro _ ⟨senderId, -, rfl⟩
  refine (yields_readUtf.ends_assign _ _).mono ?_
  rintro _ ⟨senderName, small, rfl⟩
  refine ⟨?_, by simpa [items, Item.refusal?, admitted] using small⟩
  simp [carried, same]

theorem ChatServerCopyMessage.ends_fill (start : ChatServerCopyMessage) :
    Ends fill start fun m => m.carried = m ∧ Admitted m.items := by
  refine ((ChatServerMessage.ends_fill _).within _).bind ?_
  rintro _ ⟨base, ⟨same, admitted⟩, rfl⟩
  refine ((yields_true _).ends_assign _ _).bind ?_
  rintro _ ⟨muted, -, rfl⟩
  refine ((yields_true _).ends_assign _ _).mono ?_
  rintro _ ⟨receiverId, -, rfl⟩
  refine ⟨?_, by simp [items, Item.refusal?, admitted]⟩
  simp [carried, same, Binary64.ofInt64_toInt64_ofInt64]

theorem ActorsMessage.ends_fill {types : TypeTable Entity}
    (honest : ∀ id start, types.find? id = some start → start.typeId = id) :
    Ends (fill types) {} fun m => m.carried = m ∧ Admitted m.items ∧
      ∀ e ∈ m.actor :: m.actors.toList, e.Known types := by
  refine (ends_change _ _).bind ?_
  rintro _ rfl
  refine ((ends_true _ _).within _).bind ?_
  rintro _ ⟨origin, -, rfl⟩
  refine ((yields_readInstance types).ends_assign _ _).bind ?_
  rintro _ ⟨start, ⟨id, registered⟩, rfl⟩
  refine ((Entity.ends_fill_registered honest registered).within _).bind ?_
  rintro _ ⟨actor, ⟨admitted, known⟩, rfl⟩
  refine (actorsField.ends_extend (Entity.yields_readValue honest) _).bind ?_
  rintro _ ⟨actors, fewActors, eachActor, rfl⟩
  refine (pathField.ends_extend (yields_true _) _).bind ?_
  rintro _ ⟨path, fewPoints, -, rfl⟩
  refine (namesField.ends_extend yields_readUtf _).bind ?_
  rintro _ ⟨names, fewNames, eachName, rfl⟩
  refine (yields_readUtf.ends_assign _ _).bind ?_
  rintro _ ⟨label, small, rfl⟩
  refine ((yields_true _).ends_assign _ _).bind ?_
  rintro _ ⟨kamas, -, rfl⟩
  refine ((yields_true _).ends_assign _ _).bind ?_
  rintro _ ⟨cellId, -, rfl⟩
  refine ((yields_true _).ends_assign _ _).bind ?_
  rintro _ ⟨mapId, -, rfl⟩
  refine ((yields_true _).ends_assign _ _).mono ?_
  rintro _ ⟨type, -, rfl⟩
  refine ⟨?_, ?_, ?_⟩
  · simp [carried, Binary64.ofInt64_toInt64_ofInt64]
  · have all : Admitted (sequenceItems Entity.typedItems actors) :=
      admitted_sequenceItems.2
        ⟨fewActors, fun e he => Entity.admitted_typedItems.2 (eachActor e he).1⟩
    have points : Admitted (sequenceItems Point.items path) :=
      admitted_sequenceItems.2 ⟨fewPoints, fun p _ => p.admitted_items⟩
    have strings : Admitted (sequenceItems (fun name => [.utf name]) names) :=
      admitted_sequenceItems.2 ⟨fewNames, fun s hs => by simpa using eachName s hs⟩
    simp [items, actorsField, pathField, namesField, Entity.admitted_typedItems, admitted, all,
      points, strings, small, Item.refusal?]
  · refine List.forall_mem_cons.2 ⟨known, fun e he => (eachActor e ?_).2⟩
    simpa [actorsField, pathField, namesField] using he

namespace Message

variable {types : TypeTable Entity}

/-- Whatever a message is filled from, it ends up settled. -/
theorem ends_fill (honest : ∀ id start, types.find? id = some start → start.typeId = id)
    (k : MessageKind) : Ends (fill types) k.fresh (Settled types) := by
  cases k with
  | ping =>
    refine (ends_true Ping.fill {}).wrapped ping ?_ ?_
    · exact fun _ => rfl
    · exact fun m _ => ⟨rfl, admitted_nil, by simp [entities]⟩
  | status =>
    refine (ends_true StatusMessage.fill {}).wrapped status ?_ ?_
    · exact fun _ => rfl
    · exact fun m _ => ⟨rfl, m.admitted_items, by simp [entities]⟩
  | flags =>
    refine (ends_true FlagsMessage.fill {}).wrapped flags ?_ ?_
    · exact fun _ => rfl
    · exact fun m _ => ⟨rfl, m.admitted_items, by simp [entities]⟩
  | tags =>
    refine TagsMessage.ends_fill.wrapped tags ?_ ?_
    · exact fun _ => rfl
    · exact fun m admitted => ⟨rfl, admitted, by simp [entities]⟩
  | actors =>
    refine (ActorsMessage.ends_fill honest).wrapped actors ?_ ?_
    · exact fun _ => rfl
    · exact fun m ⟨same, admitted, known⟩ => ⟨congrArg actors same, admitted, known⟩
  | chat =>
    refine (ChatMessage.ends_fill {}).wrapped chat ?_ ?_
    · exact fun _ => rfl
    · exact fun m ⟨same, admitted⟩ => ⟨congrArg chat same, admitted, by simp [entities]⟩
  | chatServer =>
    refine (ChatServerMessage.ends_fill {}).wrapped chatServer ?_ ?_
    · exact fun _ => rfl
    · exact fun m ⟨same, admitted⟩ => ⟨congrArg chatServer same, admitted, by simp [entities]⟩
  | chatServerCopy =>
    refine (ChatServerCopyMessage.ends_fill {}).wrapped chatServerCopy ?_ ?_
    · exact fun _ => rfl
    · exact fun m ⟨same, admitted⟩ => ⟨congrArg chatServerCopy same, admitted, by simp [entities]⟩

theorem exists_of_find?_messages {id : UInt16} {start : Message}
    (h : messages.find? id = some start) : ∃ k : MessageKind, k.fresh = start := by
  have mem : (id, start) ∈ MessageKind.all.map fun k => (k.id, k.fresh) := IdTable.mem_of_find? h
  obtain ⟨k, -, same⟩ := List.mem_map.1 mem
  exact ⟨k, congrArg Prod.snd same⟩

theorem settled_of_decode (honest : ∀ id start, types.find? id = some start → start.typeId = id)
    {packet : List UInt8} {m : Message} (h : messages.decode (fill types) packet = .ok m) :
    m.Settled types := by
  refine MessageTable.of_decode (fun id start registered => ?_) h
  obtain ⟨k, rfl⟩ := exists_of_find?_messages registered
  exact ends_fill honest k

end Message

/-- If a decoded message is packed, its packet decodes to the very same message, which is packed
to the same bytes again; and nothing but the length of its payload can keep it from being packed. -/
theorem pack_of_decode {types : TypeTable Entity}
    (honest : ∀ id start, types.find? id = some start → start.typeId = id)
    {packet : List UInt8} {m : Message}
    (decoded : messages.decode (Message.fill types) packet = .ok m) :
    (∀ out, m.pack {} = .ok () out →
      ∃ m', messages.decode (Message.fill types) out.toList = .ok m' ∧ m' = m ∧
        m'.pack {} = .ok () out) ∧
      ∀ e out, m.pack {} = .error e out → ∃ size, e = .payloadTooLarge size := by
  obtain ⟨carried, admitted, known⟩ := Message.settled_of_decode honest decoded
  constructor
  · intro out packed
    obtain ⟨-, small, rfl⟩ := Message.pack_ok_iff.1 packed
    have again := Message.decode_packet admitted small known []
    rw [carried, List.append_nil] at again
    exact ⟨m, by simpa using again, rfl, packed⟩
  · intro e out failed
    by_cases small : (spellAll m.items).length ≤ Packet.maxPayload
    · rw [Message.emits_pack admitted small] at failed
      exact nomatch failed
    · rw [Message.halts_pack_payload admitted (Nat.lt_of_not_le small)] at failed
      cases failed
      exact ⟨_, rfl⟩

theorem Entity.typeId_of_find?_types (id : UInt16) (start : Entity)
    (h : Entity.types.find? id = some start) : start.typeId = id := by
  have mem : (id, start) ∈ EntityKind.all.map fun k => (k.typeId, k.fresh) :=
    IdTable.mem_of_find? h
  obtain ⟨k, -, same⟩ := List.mem_map.1 mem
  cases same
  cases k <;> rfl

/-- Seven more bits in the flag's byte, a receiver that no float holds and a byte behind the message
are gone once the message is packed. -/
theorem pack_of_decode_chatServerCopy :
    ∃ m out, messages.decode (Message.fill Entity.types)
        [0, 33, 23, 0, 0, 255, 0, 0, 0, 0, 0, 0, 0, 0, 0, 0, 255,
          129, 128, 128, 128, 128, 128, 128, 16, 7] = .ok m ∧ m.pack {} = .ok () out ∧
      ∃ m', messages.decode (Message.fill Entity.types) out.toList = .ok m' ∧ m' = m ∧
        m'.pack {} = .ok () out := by
  have decoded : messages.decode (Message.fill Entity.types)
      [0, 33, 23, 0, 0, 255, 0, 0, 0, 0, 0, 0, 0, 0, 0, 0, 255,
        129, 128, 128, 128, 128, 128, 128, 16, 7] = .ok (.chatServerCopy {
          base := { base := { channel := 0xFFFFFFFF } }, muted := true,
          receiverId := ⟨0x4340000000000000⟩ }) := rfl
  have packed := Message.emits_pack (m := .chatServerCopy {
    base := { base := { channel := 0xFFFFFFFF } }, muted := true,
    receiverId := ⟨0x4340000000000000⟩ }) (by decide +kernel) (by decide +kernel) {}
  exact ⟨_, _, decoded, packed, (pack_of_decode Entity.typeId_of_find?_types decoded).1 _ packed⟩

end WireCodec.Game
