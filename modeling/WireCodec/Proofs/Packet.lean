import WireCodec.Dispatch.MessageTable
import WireCodec.Proofs.ItemRoundTrip
import WireCodec.Wire.Packet

/-!
# Packets on the wire

A packet is written if its id fits fourteen bits and its payload three bytes of length, and then it
is read back, id and payload, from any input that starts with it. Anything else is refused before a
byte is written.
-/

namespace WireCodec

namespace Packet

theorem lengthBytes_le (n : Nat) : lengthBytes n ≤ 3 := by
  unfold lengthBytes
  repeat' split
  all_goals decide

/-- The first two bytes of a packet as a number. -/
def headerWord (id : UInt16) (n : Nat) : UInt16 := .ofNat (4 * id.toNat + lengthBytes n)

section Header

variable {id : UInt16} {n : Nat}

theorem toNat_headerWord (h : id ≤ maxMessageId) :
    (headerWord id n).toNat = 4 * id.toNat + lengthBytes n := by
  have small : id.toNat ≤ 0x3FFF := UInt16.le_iff_toNat_le.1 h
  have := lengthBytes_le n
  rw [headerWord, UInt16.toNat_ofNat', Nat.mod_eq_of_lt (by omega)]

/-- The low two bits of a header are the number of length bytes. -/
theorem headerWord_and (h : id ≤ maxMessageId) :
    headerWord id n &&& 3 = .ofNat (lengthBytes n) := by
  have := lengthBytes_le n
  apply UInt16.toNat_inj.1
  rw [UInt16.toNat_and, toNat_headerWord h, UInt16.toNat_ofNat', Nat.mod_eq_of_lt (by omega)]
  show (4 * id.toNat + lengthBytes n) &&& (2 ^ 2 - 1) = _
  rw [Nat.and_two_pow_sub_one_eq_mod]
  omega

theorem headerWord_shiftRight (h : id ≤ maxMessageId) : headerWord id n >>> 2 = id := by
  have := lengthBytes_le n
  apply UInt16.toNat_inj.1
  rw [UInt16.toNat_shiftRight, toNat_headerWord h]
  show (4 * id.toNat + lengthBytes n) >>> 2 = _
  rw [Nat.shiftRight_eq_div_pow]
  omega

theorem reads_headerWord (h : id ≤ maxMessageId) :
    Reads readUnsignedShort (bigEndian 2 (4 * id.toNat + lengthBytes n)) (headerWord id n) := by
  rw [← toNat_headerWord h]
  exact reads_readUnsignedShort _

theorem bigEndian_three (n : Nat) :
    bigEndian 3 n = [.ofNat (n / 65536)] ++ bigEndian 2 (n % 65536) := by
  have middle : n % 65536 / 256 = n / 256 % 256 := by omega
  have middleByte : UInt8.ofNat (n / 256 % 256) = .ofNat (n / 256) := UInt8.ofNat_mod_size
  have lowByte : UInt8.ofNat (n % 65536) = .ofNat n := by
    rw [← UInt8.ofNat_mod_size, Nat.mod_mod_of_dvd n (by decide : UInt8.size ∣ 65536),
      UInt8.ofNat_mod_size]
  simp [bigEndian, Nat.div_div_eq_div_mul, middle, middleByte, lowByte]

theorem reads_readHeader (h : id ≤ maxMessageId) (small : n ≤ maxPayload) :
    Reads readHeader (headerBytes id n) ⟨id, n⟩ := by
  unfold readHeader headerBytes
  apply (reads_headerWord h).bind
  rw [headerWord_and h, headerWord_shiftRight h]
  unfold maxPayload at small
  unfold lengthBytes
  by_cases three : 0xFFFF < n
  · rw [if_pos three, bigEndian_three]
    have high := reads_takeByte (.ofNat (n / 65536))
    have low := reads_readUnsignedShort (.ofNat (n % 65536))
    rw [toNat_ofNat_of_le_maxSize (by unfold maxSize; omega)] at low
    have same : (UInt8.ofNat (n / 65536)).toNat * 65536 + (UInt16.ofNat (n % 65536)).toNat = n := by
      rw [UInt8.toNat_ofNat', UInt16.toNat_ofNat']
      omega
    refine high.bind (low.bind_nil ?_)
    show Reads (pure (Header.mk id _)) [] _
    rw [same]
    exact reads_pure _
  by_cases two : 0xFF < n
  · rw [if_neg three, if_pos two]
    exact (reads_readCount (Nat.not_lt.1 three)).bind_nil (reads_pure _)
  by_cases one : 0 < n
  · rw [if_neg three, if_neg two, if_pos one]
    have byte := (reads_takeByte (.ofNat n)).map UInt8.toNat
    rw [UInt8.toNat_ofNat', Nat.mod_eq_of_lt (by omega)] at byte
    exact byte.bind_nil (reads_pure _)
  · rw [if_neg three, if_neg two, if_neg one]
    obtain rfl : n = 0 := by omega
    exact reads_pure _

end Header

end Packet

section Packets

variable {id : UInt16} {payload : List UInt8}

theorem reads_readPacket (h : id ≤ Packet.maxMessageId)
    (small : payload.length ≤ Packet.maxPayload) :
    Reads readPacket (Packet.headerBytes id payload.length ++ payload) (id, payload) :=
  (Packet.reads_readHeader h small).bind ((reads_take payload).bind_nil (reads_pure _))

theorem emits_writePacket (h : id ≤ Packet.maxMessageId)
    (small : payload.length ≤ Packet.maxPayload) :
    Emits (writePacket id payload) (Packet.headerBytes id payload.length ++ payload) := by
  unfold writePacket
  rw [if_neg (UInt16.not_lt.2 h)]
  simp only [if_neg (Nat.not_lt.2 small)]
  exact (emits_put _).bind (emits_put _)

theorem halts_writePacket_id (h : Packet.maxMessageId < id) :
    Halts (writePacket id payload) (.messageIdOutOfRange id) [] := by
  unfold writePacket
  rw [if_pos h]
  exact (halts_throw _).bind

theorem halts_writePacket_payload (h : id ≤ Packet.maxMessageId)
    (large : Packet.maxPayload < payload.length) :
    Halts (writePacket id payload) (.payloadTooLarge payload.length) [] := by
  unfold writePacket
  rw [if_neg (UInt16.not_lt.2 h)]
  simp only [if_pos large]
  exact (halts_throw _).bind

end Packets

/-! ## Dispatch -/

namespace MessageTable

variable {σ : Type} {messages : MessageTable σ} {fill : FillM σ Unit} {id : UInt16} {start v : σ}
  {payload : List UInt8}

theorem reads_parse (registered : messages.find? id = some start)
    (filled : Fills fill payload start v) : Reads (messages.parse fill id) payload v := by
  unfold parse create IdTable.get
  rw [registered]
  exact Fills.fresh filled

/-- A packet is decoded if its message is registered and its payload fills the message. -/
theorem decode_packet (registered : messages.find? id = some start)
    (h : id ≤ Packet.maxMessageId) (small : payload.length ≤ Packet.maxPayload)
    (filled : Fills fill payload start v) (rest : List UInt8) :
    messages.decode fill (Packet.headerBytes id payload.length ++ payload ++ rest) = .ok v := by
  have parsed := reads_parse registered filled 0 []
  rw [List.append_nil] at parsed
  unfold decode Cursor.start
  rw [reads_readPacket h small 0 rest]
  simp only [parsed]

end MessageTable

end WireCodec
