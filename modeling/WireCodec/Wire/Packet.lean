import WireCodec.Wire.Fixed

/-!
# Packets

A packet is a header, the length of the payload and the payload. The header is two bytes: the
message id in the high fourteen bits and the number of length bytes, zero to three, in the low two.
The length takes no more bytes than it needs.
-/

namespace WireCodec

/-- What stands in front of a payload. -/
structure Header where
  messageId : UInt16
  length : Nat
  deriving DecidableEq, Repr

namespace Packet

/-- The largest message id that fits a header. -/
def maxMessageId : UInt16 := 0x3FFF

/-- The largest payload length that fits three bytes. -/
def maxPayload : Nat := 0xFFFFFF

/-- How many bytes the length of a payload takes in a header. -/
def lengthBytes (length : Nat) : Nat :=
  if 0xFFFF < length then 3 else if 0xFF < length then 2 else if 0 < length then 1 else 0

/-- The header of a payload of the given length. -/
def headerBytes (id : UInt16) (length : Nat) : List UInt8 :=
  bigEndian 2 (4 * id.toNat + lengthBytes length) ++ bigEndian (lengthBytes length) length

end Packet

/-- Writes a payload behind its header. The id is checked before the length. -/
def writePacket (id : UInt16) (payload : List UInt8) : WriteM Unit := do
  if Packet.maxMessageId < id then throw (.messageIdOutOfRange id)
  let length := payload.length
  if Packet.maxPayload < length then throw (.payloadTooLarge length)
  put (Packet.headerBytes id length)
  put payload

/-- Reads a header; the cursor is then at the payload. -/
def readHeader : ReadM Header := do
  let raw ← readUnsignedShort
  let length ← match raw &&& 3 with
    | 0 => pure 0
    | 1 => UInt8.toNat <$> readUnsignedByte
    | 2 => UInt16.toNat <$> readUnsignedShort
    | _ => do
      let high ← readUnsignedByte
      let low ← readUnsignedShort
      pure (high.toNat * 65536 + low.toNat)
  return ⟨raw >>> 2, length⟩

/-- Reads a packet: the message id and the payload. -/
def readPacket : ReadM (UInt16 × List UInt8) := do
  let header ← readHeader
  let payload ← take header.length
  return (header.messageId, payload)

end WireCodec
