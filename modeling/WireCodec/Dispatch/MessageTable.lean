import WireCodec.Dispatch.IdTable
import WireCodec.Wire.Filling
import WireCodec.Wire.Packet

/-!
# Tables of messages

A packet finds its message by the id in its header. Its payload is read on its own: nothing behind
it is looked at, and what the message leaves of it is ignored.
-/

namespace WireCodec

/-- For each message id, the value from which the message is filled. -/
abbrev MessageTable (σ : Type) := IdTable σ

namespace MessageTable

variable {σ : Type}

def register (messages : MessageTable σ) (id : UInt16) (start : σ) :
    Except Fault (MessageTable σ) :=
  IdTable.register .duplicateMessageId messages id start

def ofEntries (entries : List (UInt16 × σ)) : Except Fault (MessageTable σ) :=
  IdTable.ofEntries .duplicateMessageId entries

/-- The value from which the message of an id starts. -/
def create (messages : MessageTable σ) (id : UInt16) : Except Fault σ :=
  IdTable.get .unknownMessageId messages id

/-- Reads the body of the message of an id; an unknown id reads nothing. -/
def parse (messages : MessageTable σ) (fill : FillM σ Unit) (id : UInt16) : ReadM σ := do
  let start ← MonadExcept.ofExcept (messages.create id)
  FillM.fresh start fill

/-- Reads one packet from its start. -/
def decode (messages : MessageTable σ) (fill : FillM σ Unit) (packet : List UInt8) :
    Except Fault σ :=
  match readPacket (.start packet) with
  | .error e _ => .error e
  | .ok (id, payload) _ =>
    match messages.parse fill id (.start payload) with
    | .error e _ => .error e
    | .ok m _ => .ok m

end MessageTable

end WireCodec
