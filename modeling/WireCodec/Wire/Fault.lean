/-!
# Wire faults

Every way in which writing a value to the wire, or reading one from it, can fail, and the sentence
that reports each of them.
-/

namespace WireCodec

/-- A cause of failure on the wire. -/
inductive Fault
  /-- The input ended; so many bytes are missing. -/
  | unexpectedEnd (missing : Nat)
  /-- The bytes of a string are not UTF-8. -/
  | invalidUtf8
  /-- A variable-length integer went on past its width. -/
  | varIntTooLong (width : Nat)
  /-- The byte length of a string does not fit two bytes. -/
  | stringTooLong (size : Nat)
  /-- The length of a sequence does not fit two bytes. -/
  | vectorTooLong (count : Nat)
  /-- A flag asks for a bit that a byte does not have. -/
  | flagOverflow (bit : UInt8)
  /-- A message id does not fit the fourteen bits of a header. -/
  | messageIdOutOfRange (id : UInt16)
  /-- A payload's length does not fit three bytes. -/
  | payloadTooLarge (size : Nat)
  /-- No type is registered under this id. -/
  | unknownTypeId (id : UInt16)
  /-- A type is already registered under this id. -/
  | duplicateTypeId (id : UInt16)
  /-- No message is registered under this id. -/
  | unknownMessageId (id : UInt16)
  /-- A message is already registered under this id. -/
  | duplicateMessageId (id : UInt16)
  deriving DecidableEq, Repr

namespace Fault

/-- The sentence that reports a fault. -/
def message : Fault → String
  | unexpectedEnd missing => s!"unexpected end of buffer: {missing} more bytes needed"
  | invalidUtf8 => "string is not valid UTF-8"
  | varIntTooLong width => s!"variable-length integer exceeds {width} bits"
  | stringTooLong size => s!"string of {size} bytes exceeds u16 length prefix"
  | vectorTooLong count => s!"sequence of {count} elements exceeds u16 count prefix"
  | flagOverflow bit => s!"flag bit {bit} does not fit in one byte"
  | messageIdOutOfRange id => s!"message id {id} exceeds 0x3fff"
  | payloadTooLarge size => s!"payload of {size} bytes exceeds 24-bit length"
  | unknownTypeId id => s!"type with id {id} is unknown"
  | duplicateTypeId id => s!"type id {id} registered twice"
  | unknownMessageId id => s!"message with id {id} is unknown"
  | duplicateMessageId id => s!"message id {id} registered twice"

end Fault

end WireCodec
