import WireCodec.Proofs.Incremental
import WireCodec.Proofs.PriorState

/-!
# Packets that are cut off

A message whose bytes are cut off is never taken for another one: reading reports that input is
missing, and no more of it than there is. A packet that is cut off behind its header is short of
exactly the bytes that were cut.
-/

namespace WireCodec

/-! ## Packets -/

section Packets

variable {id : UInt16} {payload q rest : List UInt8}

/-- A packet that is cut off lacks no more bytes than were cut. -/
theorem readPacket_cut (h : id ≤ Packet.maxMessageId) (small : payload.length ≤ Packet.maxPayload)
    (split : q ++ rest = Packet.headerBytes id payload.length ++ payload) (more : rest ≠ []) :
    ∃ n c, readPacket (.start q) = .error (.unexpectedEnd n) c ∧ 1 ≤ n ∧ n ≤ rest.length := by
  have whole := reads_readPacket h small 0 []
  rw [List.append_nil, ← split] at whole
  have fed : readPacket (feed (.start q) rest) = _ := whole
  exact forward_readPacket.toIncremental.shortage fed rfl more

/-- A packet that is cut off behind its header lacks just the bytes that were cut. -/
theorem readPacket_cut_payload (h : id ≤ Packet.maxMessageId)
    (small : payload.length ≤ Packet.maxPayload) (split : q ++ rest = payload) (more : rest ≠ []) :
    ∃ c, readPacket (.start (Packet.headerBytes id payload.length ++ q)) =
      .error (.unexpectedEnd rest.length) c := by
  have header := Packet.reads_readHeader h small 0 q
  have length : payload.length = q.length + rest.length := by rw [← split, List.length_append]
  have missing : 0 < rest.length := List.length_pos_iff.2 more
  have cut : ∀ p, take payload.length ⟨p, q⟩ = .error (.unexpectedEnd rest.length) ⟨p, q⟩ := by
    intro p
    have short : (Cursor.mk p q).remaining < payload.length := by
      simp only [Cursor.remaining]
      omega
    refine (run_take_of_lt short).trans ?_
    simp only [Cursor.remaining, length, Nat.add_sub_cancel_left]
  exact ⟨_, (bind_of_ok header).trans (bind_of_error (cut _))⟩

end Packets

namespace Game

/-! ## Reading values and messages -/

theorem Point.forward_fill : Forward fill :=
  (forward_readShort.assign _).bind fun _ => forward_readShort.assign _

theorem ActorInformation.forward_fill : Forward fill := forward_readDouble.assign _

theorem CharacterInformation.forward_fill : Forward fill :=
  (ActorInformation.forward_fill.within _ _).bind fun _ =>
    (forward_readUtf.assign _).bind fun _ => forward_readVarUnsignedShort.assign _

theorem MonsterInformation.forward_fill : Forward fill :=
  (ActorInformation.forward_fill.within _ _).bind fun _ => forward_readVarInt.assign _

theorem StatusMessage.forward_fill : Forward fill := (forward_readFlag 0).assign _

theorem FlagsMessage.forward_fill : Forward fill :=
  ((forward_readFlag 0).assign _).bind fun _ =>
    ((forward_readFlag 1).assign _).bind fun _ =>
    ((forward_readFlag 2).assign _).bind fun _ =>
    ((forward_readFlag 1).assign _).bind fun _ =>
    forward_readInt.assign _

theorem TagsMessage.forward_fill : Forward fill := forward_readInt.extend _

theorem ChatMessage.forward_fill : Forward fill :=
  (forward_readUtf.assign _).bind fun _ => forward_readByte.assign _

theorem ChatServerMessage.forward_fill : Forward fill :=
  (ChatMessage.forward_fill.within _ _).bind fun _ =>
    (forward_readDouble.assign _).bind fun _ => forward_readUtf.assign _

theorem ChatServerCopyMessage.forward_fill : Forward fill :=
  (ChatServerMessage.forward_fill.within _ _).bind fun _ =>
    ((forward_readFlag 0).assign _).bind fun _ => forward_readVarLong.assign _

theorem Entity.forward_fill : Forward fill := by
  refine forward_of_cases fun e => ?_
  cases e with
  | point v => exact ⟨_, Point.forward_fill.inside point v, fun _ => rfl⟩
  | actor v => exact ⟨_, ActorInformation.forward_fill.inside actor v, fun _ => rfl⟩
  | character v => exact ⟨_, CharacterInformation.forward_fill.inside character v, fun _ => rfl⟩
  | monster v => exact ⟨_, MonsterInformation.forward_fill.inside monster v, fun _ => rfl⟩

section Messages

variable {types : TypeTable Entity}

theorem ActorsMessage.forward_fill : Forward (fill types) :=
  (forward_change _).bind fun _ =>
    (Point.forward_fill.within _ _).bind fun _ =>
    (forward_readInstance.assign _).bind fun _ =>
    (Entity.forward_fill.within _ _).bind fun _ =>
    (Entity.forward_fill.readValue.extend _).bind fun _ =>
    ((Point.forward_fill.fresh {}).extend _).bind fun _ =>
    (forward_readUtf.extend _).bind fun _ =>
    (forward_readUtf.assign _).bind fun _ =>
    (forward_readVarLong.assign _).bind fun _ =>
    (forward_readVarShort.assign _).bind fun _ =>
    (forward_readDouble.assign _).bind fun _ =>
    forward_readByte.assign _

theorem Message.forward_fill : Forward (fill types) := by
  refine forward_of_cases fun m => ?_
  cases m with
  | ping m => exact ⟨_, (forward_pure ()).inside ping m, fun _ => rfl⟩
  | status m => exact ⟨_, StatusMessage.forward_fill.inside status m, fun _ => rfl⟩
  | flags m => exact ⟨_, FlagsMessage.forward_fill.inside flags m, fun _ => rfl⟩
  | tags m => exact ⟨_, TagsMessage.forward_fill.inside tags m, fun _ => rfl⟩
  | actors m => exact ⟨_, ActorsMessage.forward_fill.inside actors m, fun _ => rfl⟩
  | chat m => exact ⟨_, ChatMessage.forward_fill.inside chat m, fun _ => rfl⟩
  | chatServer m => exact ⟨_, ChatServerMessage.forward_fill.inside chatServer m, fun _ => rfl⟩
  | chatServerCopy m =>
    exact ⟨_, ChatServerCopyMessage.forward_fill.inside chatServerCopy m, fun _ => rfl⟩

/-! ## Cut off packets and payloads -/

namespace Message

variable {m : Message} {q rest : List UInt8}

/-- A value that is filled in place of a default one fails if that does. -/
theorem fill_error_of_fresh {start : Message} {c : Cursor} {e : Fault} {d : Filling Message}
    (run : fill types ⟨start.kind.fresh, c⟩ = .error e d) :
    ∃ s, fill types ⟨start, c⟩ = .error e s := by
  have same := compares_fill types start c
  rw [run] at same
  cases filled : fill types ⟨start, c⟩ with
  | ok _ s =>
    rw [filled] at same
    exact same.elim
  | error e' s =>
    rw [filled] at same
    exact ⟨s, congrArg (EStateM.Result.error · s) same.1⟩

theorem fill_cut (h : Admitted m.items) (known : ∀ e ∈ m.entities, e.Known types)
    (split : q ++ rest = spellAll m.items) (more : rest ≠ []) {start : Message}
    (same : start.kind = m.kind) (p : Nat) :
    ∃ n s, fill types ⟨start, p, q⟩ = .error (.unexpectedEnd n) s ∧ 1 ≤ n ∧ n ≤ rest.length := by
  have whole := restores_fill h known p []
  rw [List.append_nil, ← split, ← same] at whole
  obtain ⟨n, d, cut, bounds⟩ := forward_fill.toIncremental.shortage
    (show fill types (feed ⟨start.kind.fresh, p, q⟩ rest) = _ from whole) rfl more
  obtain ⟨s, failed⟩ := fill_error_of_fresh cut
  exact ⟨n, s, failed, bounds⟩

end Message

end Messages

/-- A message that is read from a part of its bytes, up to some point before their end, lacks input,
at least one byte and no more than were cut off. A packet lacks just what was cut off if the part
holds the whole header. -/
theorem unexpectedEnd_of_cut {types : TypeTable Entity} {m : Message}
    (known : ∀ e ∈ m.entities, ∃ start, types.find? e.typeId = some start ∧ start.kind = e.kind) :
    (∀ out, m.pack {} = .ok () out → ∀ q rest, q ++ rest = out.toList → rest ≠ [] →
      ∃ n, messages.decode (Message.fill types) q = .error (.unexpectedEnd n) ∧
        1 ≤ n ∧ n ≤ rest.length ∧
        ∀ payload, m.write {} = .ok () payload →
          (Packet.headerBytes m.id payload.size).length ≤ q.length → n = rest.length) ∧
    ∀ payload, m.write {} = .ok () payload → ∀ q rest, q ++ rest = payload.toList → rest ≠ [] →
      ∀ start : Message, start.kind = m.kind → ∀ p,
        ∃ n s, Message.fill types ⟨start, p, q⟩ = .error (.unexpectedEnd n) s ∧
          1 ≤ n ∧ n ≤ rest.length := by
  constructor
  · intro out packed q rest split more
    obtain ⟨-, small, rfl⟩ := Message.pack_ok_iff.1 packed
    rw [Buffer.toList_append, Buffer.toList_empty, List.nil_append] at split
    obtain ⟨n, c, cut, positive, bound⟩ := readPacket_cut m.kind.id_le small split more
    refine ⟨n, ?_, positive, bound, fun payload written whole => ?_⟩
    · rw [MessageTable.decode, cut]
    · obtain ⟨-, rfl⟩ := Message.write_ok_iff.1 written
      rw [Buffer.size_eq_length, Buffer.toList_append, Buffer.toList_empty,
        List.nil_append] at whole
      obtain ⟨q, rfl⟩ := List.prefix_of_prefix_length_le ⟨_, rfl⟩ ⟨_, split⟩ whole
      rw [List.append_assoc] at split
      obtain ⟨c', lacks⟩ :=
        readPacket_cut_payload m.kind.id_le small (List.append_cancel_left split) more
      cases cut.symm.trans lacks
      rfl
  · intro payload written q rest split more start same p
    obtain ⟨admitted, rfl⟩ := Message.write_ok_iff.1 written
    rw [Buffer.toList_append, Buffer.toList_empty, List.nil_append] at split
    exact Message.fill_cut admitted known split more same p

/-- A monster, a point and a name of two bytes. -/
def encounter : Message := .actors {
  actor := .monster { creatureId := -1 }, actors := #[.point { x := 3 }], names := #["é"] }

/-- The message is cut off within its name, fourteen bytes before its end. -/
theorem unexpectedEnd_of_cut_encounter :
    ∃ packet payload, encounter.pack {} = .ok () packet ∧ encounter.write {} = .ok () payload ∧
      messages.decode (Message.fill Entity.types) (packet.toList.take 37) =
        .error (.unexpectedEnd 14) ∧
      ∃ n s, Message.fill Entity.types ⟨.actors { names := #["x"] }, 0, payload.toList.take 34⟩ =
          .error (.unexpectedEnd n) s ∧ 1 ≤ n ∧ n ≤ 14 := by
  have admitted : Admitted encounter.items := by decide +kernel
  have written := Message.emits_write admitted {}
  have packed := Message.emits_pack admitted (by decide +kernel) {}
  have known : ∀ e ∈ encounter.entities,
      ∃ start, Entity.types.find? e.typeId = some start ∧ start.kind = e.kind := by
    decide +kernel
  obtain ⟨ofPacket, ofPayload⟩ := unexpectedEnd_of_cut known
  refine ⟨_, _, packed, written, ?_, ?_⟩
  · obtain ⟨n, decoded, -, -, lacks⟩ :=
      ofPacket _ packed _ _ (List.take_append_drop 37 _) (by decide +kernel)
    have all : n = 14 := (lacks _ written (by decide +kernel)).trans (by decide +kernel)
    rw [decoded, all]
  · obtain ⟨n, s, failed, positive, bound⟩ :=
      ofPayload _ written _ _ (List.take_append_drop 34 _) (by decide +kernel)
        (.actors { names := #["x"] }) rfl 0
    exact ⟨n, s, failed, positive, Nat.le_trans bound (by decide +kernel)⟩

end Game

end WireCodec
