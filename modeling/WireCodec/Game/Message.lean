import WireCodec.Dispatch.MessageTable
import WireCodec.Game.Actors
import WireCodec.Game.Basic
import WireCodec.Game.Chat

/-!
# Messages

The eight messages of the protocol, their ids, and the table by which a packet finds its message.
-/

namespace WireCodec.Game

/-- The messages of the protocol. -/
inductive MessageKind
  | ping
  | status
  | flags
  | tags
  | actors
  | chat
  | chatServer
  | chatServerCopy
  deriving DecidableEq, Repr

/-- A message of any kind. -/
inductive Message
  | ping (m : Ping)
  | status (m : StatusMessage)
  | flags (m : FlagsMessage)
  | tags (m : TagsMessage)
  | actors (m : ActorsMessage)
  | chat (m : ChatMessage)
  | chatServer (m : ChatServerMessage)
  | chatServerCopy (m : ChatServerCopyMessage)
  deriving DecidableEq, Repr

namespace MessageKind

def all : List MessageKind :=
  [ping, status, flags, tags, actors, chat, chatServer, chatServerCopy]

/-- The declared name of the message. -/
def name : MessageKind → String
  | ping => "Ping"
  | status => "StatusMessage"
  | flags => "FlagsMessage"
  | tags => "TagsMessage"
  | actors => "ActorsMessage"
  | chat => "ChatMessage"
  | chatServer => "ChatServerMessage"
  | chatServerCopy => "ChatServerCopyMessage"

/-- The message of a name. -/
def ofName? (name : String) : Option MessageKind := all.find? (·.name == name)

/-- The id in the header of the message's packets. -/
def id : MessageKind → UInt16
  | ping => 1
  | status => 2
  | flags => 3
  | tags => 4
  | actors => 5
  | chat => 6
  | chatServer => 7
  | chatServerCopy => 8

/-- The default value of the message. -/
def fresh : MessageKind → Message
  | ping => .ping {}
  | status => .status {}
  | flags => .flags {}
  | tags => .tags {}
  | actors => .actors {}
  | chat => .chat {}
  | chatServer => .chatServer {}
  | chatServerCopy => .chatServerCopy {}

end MessageKind

namespace Message

def kind : Message → MessageKind
  | ping _ => .ping
  | status _ => .status
  | flags _ => .flags
  | tags _ => .tags
  | actors _ => .actors
  | chat _ => .chat
  | chatServer _ => .chatServer
  | chatServerCopy _ => .chatServerCopy

def id (m : Message) : UInt16 := m.kind.id

def reset : Message → Message
  | ping m => .ping m.reset
  | status m => .status m.reset
  | flags m => .flags m.reset
  | tags m => .tags m.reset
  | actors m => .actors m.reset
  | chat m => .chat m.reset
  | chatServer m => .chatServer m.reset
  | chatServerCopy m => .chatServerCopy m.reset

def write : Message → WriteM Unit
  | ping m => m.write
  | status m => m.write
  | flags m => m.write
  | tags m => m.write
  | actors m => m.write
  | chat m => m.write
  | chatServer m => m.write
  | chatServerCopy m => m.write

/-- Fills a message of whichever kind it is. -/
def fill (types : TypeTable Entity) : FillM Message Unit := fun s =>
  match s.value with
  | ping m => FillM.inside ping m Ping.fill s
  | status m => FillM.inside status m StatusMessage.fill s
  | flags m => FillM.inside flags m FlagsMessage.fill s
  | tags m => FillM.inside tags m TagsMessage.fill s
  | actors m => FillM.inside actors m (ActorsMessage.fill types) s
  | chat m => FillM.inside chat m ChatMessage.fill s
  | chatServer m => FillM.inside chatServer m ChatServerMessage.fill s
  | chatServerCopy m => FillM.inside chatServerCopy m ChatServerCopyMessage.fill s

/-- Writes the message as a packet; nothing is written if its payload cannot be. -/
def pack (m : Message) : WriteM Unit := fun out =>
  match m.write {} with
  | .ok _ payload => writePacket m.id payload.toList out
  | .error e _ => .error e out

end Message

/-- Every message with its id, in the order of the protocol. -/
def protocol : List (UInt16 × MessageKind) := MessageKind.all.map fun k => (k.id, k)

/-- Every message under its id. -/
def messages : MessageTable Message := ⟨protocol.map fun (id, k) => (id, k.fresh), by decide⟩

theorem ofEntries_messages_entries : MessageTable.ofEntries messages.entries = .ok messages := rfl

end WireCodec.Game
