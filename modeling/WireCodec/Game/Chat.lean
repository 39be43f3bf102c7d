import WireCodec.Wire.Filling
import WireCodec.Wire.FlagByte
import WireCodec.Wire.Varint

/-!
# Chat messages

Three messages, each of which extends the one before it: what was said, who said it, and to whom it
was copied. The fields of the extended message come first on the wire.
-/

namespace WireCodec.Game

/-- What was said on a channel. -/
structure ChatMessage where
  content : String := ""
  channel : UInt32 := 0
  deriving DecidableEq, Repr

namespace ChatMessage

def reset (m : ChatMessage) : ChatMessage := { m with content := "", channel := 0 }

/-- The channel travels as its low byte. -/
def write (m : ChatMessage) : WriteM Unit := do
  writeUtf m.content
  writeByte m.channel.toUInt8.toInt8

def fill : FillM ChatMessage Unit := do
  .assign (fun m content => { m with content }) readUtf
  .assign (fun m channel => { m with channel := channel.toInt32.toUInt32 }) readByte

end ChatMessage

/-- What was said and by whom. -/
structure ChatServerMessage where
  base : ChatMessage := {}
  senderId : Binary64 := {}
  senderName : String := ""
  deriving DecidableEq, Repr

namespace ChatServerMessage

def reset (m : ChatServerMessage) : ChatServerMessage :=
  { m with base := m.base.reset, senderId := {}, senderName := "" }

def write (m : ChatServerMessage) : WriteM Unit := do
  m.base.write
  writeDouble m.senderId
  writeUtf m.senderName

def fill : FillM ChatServerMessage Unit := do
  .within base (fun m base => { m with base }) ChatMessage.fill
  .assign (fun m senderId => { m with senderId }) readDouble
  .assign (fun m senderName => { m with senderName }) readUtf

end ChatServerMessage

/-- A copy of what was said, for its receiver. -/
structure ChatServerCopyMessage where
  base : ChatServerMessage := {}
  muted : Bool := false
  receiverId : Binary64 := {}
  deriving DecidableEq, Repr

namespace ChatServerCopyMessage

def reset (m : ChatServerCopyMessage) : ChatServerCopyMessage :=
  { m with base := m.base.reset, muted := false, receiverId := {} }

/-- The flag comes before the receiver, which travels as a whole number. -/
def write (m : ChatServerCopyMessage) : WriteM Unit := do
  m.base.write
  writeFlag 0 m.muted
  writeVarLong m.receiverId.toInt64

def fill : FillM ChatServerCopyMessage Unit := do
  .within base (fun m base => { m with base }) ChatServerMessage.fill
  .assign (fun m muted => { m with muted }) (readFlag 0)
  .assign (fun m receiverId => { m with receiverId := .ofInt64 receiverId }) readVarLong

end ChatServerCopyMessage

end WireCodec.Game
