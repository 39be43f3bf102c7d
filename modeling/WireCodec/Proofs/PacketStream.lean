import WireCodec.Proofs.Packet

/-!
# Streams of packets

Packets that are written one after the other into one buffer are read back from it in order, until
nothing is left. A refused packet leaves no trace in the buffer, so that just the accepted ones are
read back. A header spends as few bytes on the length as the length admits.
-/

namespace WireCodec

/-! ## Readers that move on -/

section Consuming

variable {α β : Type}

/-- When it succeeds, the action has read at least `n` bytes. -/
def Consumes (r : ReadM α) (n : Nat) : Prop :=
  ∀ c a c', r c = .ok a c' → c'.remaining + n ≤ c.remaining

theorem consumes_pure (a : α) : Consumes (pure a) 0 := by
  intro c b c' run
  cases run
  exact Nat.le_refl _

theorem consumes_take (n : Nat) : Consumes (take n) n := by
  intro c xs c' run
  by_cases enough : n ≤ c.remaining
  · cases (run_take_of_le enough).symm.trans run
    simp only [Cursor.remaining, Cursor.advance, List.length_drop] at enough ⊢
    omega
  · cases (run_take_of_lt (Nat.lt_of_not_le enough)).symm.trans run

theorem consumes_takeByte : Consumes takeByte 1 := by
  rintro ⟨p, _ | ⟨b, rest⟩⟩ a c' run
  · exact nomatch run
  · cases run
    exact Nat.le_refl _

theorem Consumes.bind {r : ReadM α} {k : α → ReadM β} {m n : Nat} (h : Consumes r m)
    (h' : ∀ a, Consumes (k a) n) : Consumes (r >>= k) (m + n) := by
  intro c b c' run
  obtain ⟨a, c₁, first, second⟩ := exists_of_bind_ok run
  have := h c a c₁ first
  have := h' a c₁ b c' second
  omega

theorem Consumes.map {r : ReadM α} {n : Nat} (h : Consumes r n) (f : α → β) :
    Consumes (f <$> r) n := by
  rw [← bind_pure_comp]
  exact h.bind fun a => consumes_pure (f a)

theorem Consumes.mono {r : ReadM α} {m n : Nat} (h : Consumes r n) (le : m ≤ n) : Consumes r m :=
  fun c a c' run => Nat.le_trans (Nat.add_le_add_left le _) (h c a c' run)

end Consuming

theorem consumes_readUnsignedShort : Consumes readUnsignedShort 2 :=
  ((consumes_take 2).map _).map _

theorem consumes_readHeader : Consumes readHeader 2 := by
  refine consumes_readUnsignedShort.bind (n := 0) fun raw => ?_
  dsimp only
  split
  · exact (consumes_pure 0).bind fun _ => consumes_pure _
  · exact ((consumes_takeByte.map _).bind fun _ => consumes_pure _).mono (Nat.zero_le 1)
  · exact ((consumes_readUnsignedShort.map _).bind fun _ => consumes_pure _).mono (Nat.zero_le 2)
  · exact (consumes_takeByte.bind fun _ => consumes_readUnsignedShort.bind fun _ =>
      (consumes_pure _).bind fun _ => consumes_pure _).mono (Nat.zero_le 3)

theorem consumes_readPacket : Consumes readPacket 2 :=
  consumes_readHeader.bind fun header =>
    (Consumes.bind (consumes_take header.length) fun _ => consumes_pure _).mono (Nat.zero_le _)

/-! ## Streams -/

/-- Reads packets until nothing is left. -/
def readPackets (c : Cursor) : EStateM.Result Fault Cursor (List (UInt16 × List UInt8)) :=
  if c.isEmpty then .ok [] c
  else
    match _read : readPacket c with
    | .error e c' => .error e c'
    | .ok packet c' =>
      match readPackets c' with
      | .error e c'' => .error e c''
      | .ok packets c'' => .ok (packet :: packets) c''
termination_by c.remaining
decreasing_by
  have := consumes_readPacket _ _ _ _read
  omega

theorem readPackets_nil (p : Nat) : readPackets ⟨p, []⟩ = .ok [] ⟨p, []⟩ := by
  rw [readPackets]
  rfl

theorem readPackets_of_read {c c' end' : Cursor} {packet : UInt16 × List UInt8}
    {packets : List (UInt16 × List UInt8)} (more : c.isEmpty = false)
    (read : readPacket c = .ok packet c') (rest : readPackets c' = .ok packets end') :
    readPackets c = .ok (packet :: packets) end' := by
  rw [readPackets, more]
  simp only [Bool.false_eq_true, if_false]
  split
  · rename_i failed
    exact nomatch failed.symm.trans read
  · rename_i packet' c'' read'
    cases read'.symm.trans read
    rw [rest]

/-- What an action fails with, if it does, and the buffer after it. -/
def attempt (w : WriteM Unit) (out : Buffer) : Option Fault × Buffer :=
  match w out with
  | .ok _ out => (none, out)
  | .error e out => (some e, out)

/-- Writes packets one after the other, whether or not those before them are refused: what each of
them is refused with, if it is, and the buffer in the end. -/
def writePackets : List (UInt16 × List UInt8) → Buffer → List (Option Fault) × Buffer
  | [], out => ([], out)
  | (id, payload) :: packets, out =>
    let (fault?, out) := attempt (writePacket id payload) out
    let (faults, out) := writePackets packets out
    (fault? :: faults, out)

namespace Packet

/-- Why a packet is refused, if it is. -/
def refusal? (packet : UInt16 × List UInt8) : Option Fault :=
  if maxMessageId < packet.1 then some (.messageIdOutOfRange packet.1)
  else if maxPayload < packet.2.length then some (.payloadTooLarge packet.2.length)
  else none

/-- The bytes of an accepted packet. -/
def spell (packet : UInt16 × List UInt8) : List UInt8 :=
  headerBytes packet.1 packet.2.length ++ packet.2

theorem refusal?_eq_none {packet : UInt16 × List UInt8} :
    refusal? packet = none ↔ packet.1 ≤ maxMessageId ∧ packet.2.length ≤ maxPayload := by
  unfold refusal?
  grind

/-- The id is checked before the length. -/
theorem refusal?_eq_some {packet : UInt16 × List UInt8} {e : Fault} :
    refusal? packet = some e ↔
      maxMessageId < packet.1 ∧ e = .messageIdOutOfRange packet.1 ∨
        packet.1 ≤ maxMessageId ∧ maxPayload < packet.2.length ∧
          e = .payloadTooLarge packet.2.length := by
  unfold refusal?
  grind

/-- A refused packet leaves the buffer as it was, an accepted one is appended to it. -/
theorem writePacket_eq (packet : UInt16 × List UInt8) (out : Buffer) :
    writePacket packet.1 packet.2 out =
      match refusal? packet with
      | some e => .error e out
      | none => .ok () (out.append (spell packet)) := by
  unfold refusal?
  by_cases large : maxMessageId < packet.1
  · rw [halts_writePacket_id large, if_pos large, out.append_nil]
  by_cases long : maxPayload < packet.2.length
  · rw [halts_writePacket_payload (UInt16.not_lt.1 large) long, if_neg large, if_pos long,
      out.append_nil]
  · rw [emits_writePacket (UInt16.not_lt.1 large) (Nat.not_lt.1 long), if_neg large, if_neg long]
    rfl

theorem isEmpty_spell_append (packet : UInt16 × List UInt8) (p : Nat) (rest : List UInt8) :
    Cursor.isEmpty ⟨p, spell packet ++ rest⟩ = false := by
  simp [Cursor.isEmpty, spell, headerBytes, bigEndian]

/-- Accepted packets are read back one by one, to the last byte. -/
theorem readPackets_flatMap {packets : List (UInt16 × List UInt8)}
    (accepted : ∀ packet ∈ packets, refusal? packet = none) (p : Nat) :
    readPackets ⟨p, packets.flatMap spell⟩ =
      .ok packets ⟨p + (packets.flatMap spell).length, []⟩ := by
  induction packets generalizing p with
  | nil => exact readPackets_nil p
  | cons packet packets ih =>
    obtain ⟨first, others⟩ := List.forall_mem_cons.1 accepted
    obtain ⟨fits, small⟩ := refusal?_eq_none.1 first
    have read := reads_readPacket fits small p (packets.flatMap spell)
    have rest := ih others (p + (spell packet).length)
    rw [List.flatMap_cons, List.length_append, ← Nat.add_assoc]
    exact readPackets_of_read (isEmpty_spell_append packet p _) read rest

theorem writePackets_eq (packets : List (UInt16 × List UInt8)) (out : Buffer) :
    writePackets packets out = (packets.map refusal?,
      out.append ((packets.filter fun packet => (refusal? packet).isNone).flatMap spell)) := by
  induction packets generalizing out with
  | nil => rw [writePackets, List.filter_nil, List.flatMap_nil, out.append_nil, List.map_nil]
  | cons packet packets ih =>
    rw [writePackets, attempt, writePacket_eq]
    cases refused : refusal? packet with
    | none => simp [refused, ih, Buffer.append_append]
    | some e => simp [refused, ih]

/-! ## Length bytes -/

/-- The length bytes can hold the length. -/
theorem lt_shiftLeft_lengthBytes {n : Nat} (h : n ≤ maxPayload) :
    n < 1 <<< (8 * lengthBytes n) := by
  unfold maxPayload at h
  by_cases three : 0xFFFF < n
  · rw [lengthBytes, if_pos three]
    omega
  by_cases two : 0xFF < n
  · rw [lengthBytes, if_neg three, if_pos two]
    omega
  by_cases one : 0 < n
  · rw [lengthBytes, if_neg three, if_neg two, if_pos one]
    omega
  · rw [lengthBytes, if_neg three, if_neg two, if_neg one]
    omega

/-- Fewer bytes cannot hold the length. -/
theorem lengthBytes_le_of_lt {n k : Nat} (h : n < 1 <<< (8 * k)) : lengthBytes n ≤ k := by
  match k with
  | 0 | 1 | 2 =>
    simp only [Nat.shiftLeft_eq, Nat.one_mul] at h
    grind [lengthBytes]
  | k + 3 => exact Nat.le_trans (lengthBytes_le n) (Nat.le_add_left 3 k)

end Packet

/-- Of packets written one after the other, exactly those are refused whose id does not fit fourteen
bits, or else whose payload is too long, and a refusal leaves the buffer as it was. An accepted
packet has the fewest length bytes that can hold its length. Reading packets until the buffer is
empty gives the accepted ones in order and ends at the last byte. -/
theorem readPackets_writePackets (packets : List (UInt16 × List UInt8)) :
    (∀ (id : UInt16) (payload : List UInt8) (out out' : Buffer),
      (∀ e, writePacket id payload out = .error e out' ↔ out' = out ∧
        (0x3FFF < id ∧ e = .messageIdOutOfRange id ∨
          id ≤ 0x3FFF ∧ 0xFFFFFF < payload.length ∧ e = .payloadTooLarge payload.length)) ∧
      (writePacket id payload out = .ok () out' → ∃ n,
        out' = out.append
          (bigEndian 2 (4 * id.toNat + n) ++ bigEndian n payload.length ++ payload) ∧
        payload.length < 1 <<< (8 * n) ∧ ∀ k, payload.length < 1 <<< (8 * k) → n ≤ k)) ∧
    (writePackets packets {}).1 = packets.map Packet.refusal? ∧
    readPackets (.start (writePackets packets {}).2.toList) =
      .ok (packets.filter fun packet => (Packet.refusal? packet).isNone)
        ⟨(writePackets packets {}).2.size, []⟩ := by
  refine ⟨fun id payload out out' => ⟨fun e => ?_, fun accepted => ?_⟩, ?_, ?_⟩
  · rw [Packet.writePacket_eq (id, payload)]
    have cause : Packet.refusal? (id, payload) = some e ↔ _ := Packet.refusal?_eq_some
    cases refused : Packet.refusal? (id, payload) <;> grind [Packet.maxMessageId, Packet.maxPayload]
  · rw [Packet.writePacket_eq (id, payload)] at accepted
    cases refused : Packet.refusal? (id, payload) with
    | some e => simp [refused] at accepted
    | none =>
      obtain ⟨-, small⟩ := Packet.refusal?_eq_none.1 refused
      rw [refused] at accepted
      cases accepted
      exact ⟨_, rfl, Packet.lt_shiftLeft_lengthBytes small, fun k => Packet.lengthBytes_le_of_lt⟩
  · rw [Packet.writePackets_eq]
  · have accepted : ∀ packet ∈ packets.filter fun packet => (Packet.refusal? packet).isNone,
        Packet.refusal? packet = none := by
      simp [List.mem_filter]
    have read := Packet.readPackets_flatMap accepted 0
    rw [Packet.writePackets_eq, Buffer.size_eq_length, Buffer.toList_append, Buffer.toList_empty,
      List.nil_append]
    rw [Nat.zero_add] at read
    exact read

end WireCodec
