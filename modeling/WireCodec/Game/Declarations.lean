import WireCodec.Game.Message
import WireCodec.Schema.Decode

/-!
# The schema of the protocol

The declarations of the eight messages and of the value types, as their author wrote them and as
what they stand for.
-/

namespace WireCodec.Game

/-- The lines of the schema's text. -/
def schemaLines : List String :=
  ["\x7b",
    "  \"messages\": [",
    "    \x7b",
    "      \"name\": \"Ping\",",
    "      \"package\": \"com.ankamagames.dofus.network.messages.common.basic\",",
    "      \"protocolId\": 1,",
    "      \"parent\": \"\",",
    "      \"fields\": []",
    "    \x7d,",
    "    \x7b",
    "      \"name\": \"StatusMessage\",",
    "      \"package\": \"com.ankamagames.dofus.network.messages.game.basic\",",
    "      \"protocolId\": 2,",
    "      \"parent\": \"\",",
    "      \"fields\": [",
    "        \x7b",
    "          \"name\": \"active\",",
    "          \"type\": \"Boolean\",",
    "          \"isVector\": false,",
    "          \"useTypeManager\": false,",
    "          \"useBBW\": true,",
    "          \"bbwPosition\": 0",
    "        \x7d",
    "      ]",
    "    \x7d,",
    "    \x7b",
    "      \"name\": \"FlagsMessage\",",
    "      \"package\": \"com.ankamagames.dofus.network.messages.game.basic\",",
    "      \"protocolId\": 3,",
    "      \"parent\": \"\",",
    "      \"fields\": [",
    "        \x7b",
    "          \"name\": \"c\",",
    "          \"type\": \"Boolean\",",
    "          \"isVector\": false,",
    "          \"useTypeManager\": false,",
    "          \"useBBW\": true,",
    "          \"bbwPosition\": 2",
    "        \x7d,",
    "        \x7b",
    "          \"name\": \"count\",",
    "          \"type\": \"int\",",
    "          \"isVector\": false,",
    "          \"useTypeManager\": false,",
    "          \"useBBW\": false,",
    "          \"writeMethod\": \"writeInt\"",
    "        \x7d,",
    "        \x7b",
    "          \"name\": \"a\",",
    "          \"type\": \"Boolean\",",
    "          \"isVector\": false,",
    "          \"useTypeManager\": false,",
    "          \"useBBW\": true,",
    "          \"bbwPosition\": 0",
    "        \x7d,",
    "        \x7b",
    "          \"name\": \"b\",",
    "          \"type\": \"Boolean\",",
    "          \"isVector\": false,",
    "          \"useTypeManager\": false,",
    "          \"useBBW\": true,",
    "          \"bbwPosition\": 1",
    "        \x7d,",
    "        \x7b",
    "          \"name\": \"overflow\",",
    "          \"type\": \"Boolean\",",
    "          \"isVector\": false,",
    "          \"useTypeManager\": false,",
    "          \"useBBW\": true,",
    "          \"bbwPosition\": 9",
    "        \x7d",
    "      ]",
    "    \x7d,",
    "    \x7b",
    "      \"name\": \"TagsMessage\",",
    "      \"package\": \"com.ankamagames.dofus.network.messages.game.basic\",",
    "      \"protocolId\": 4,",
    "      \"parent\": \"\",",
    "      \"fields\": [",
    "        \x7b",
    "          \"name\": \"tags\",",
    "          \"type\": \"int\",",
    "          \"isVector\": true,",
    "          \"useTypeManager\": false,",
    "          \"useBBW\": false,",
    "          \"writeMethod\": \"writeInt\"",
    "        \x7d",
    "      ]",
    "    \x7d,",
    "    \x7b",
    "      \"name\": \"ActorsMessage\",",
    "      \"package\": \"com.ankamagames.dofus.network.messages.game.context\",",
    "      \"protocolId\": 5,",
    "      \"parent\": \"\",",
    "      \"fields\": [",
    "        \x7b",
    "          \"name\": \"origin\",",
    "          \"type\": \"Point\",",
    "          \"isVector\": false,",
    "          \"useTypeManager\": false,",
    "          \"useBBW\": false",
    "        \x7d,",
    "        \x7b",
    "          \"name\": \"actor\",",
    "          \"type\": \"ActorInformation\",",
    "          \"isVector\": false,",
    "          \"useTypeManager\": true,",
    "          \"useBBW\": false",
    "        \x7d,",
    "        \x7b",
    "          \"name\": \"actors\",",
    "          \"type\": \"ActorInformation\",",
    "          \"isVector\": true,",
    "          \"useTypeManager\": true,",
    "          \"useBBW\": false",
    "        \x7d,",
    "        \x7b",
    "          \"name\": \"path\",",
    "          \"type\": \"Point\",",
    "          \"isVector\": true,",
    "          \"useTypeManager\": false,",
    "          \"useBBW\": false",
    "        \x7d,",
    "        \x7b",
    "          \"name\": \"names\",",
    "          \"type\": \"String\",",
    "          \"isVector\": true,",
    "          \"useTypeManager\": false,",
    "          \"useBBW\": false,",
    "          \"writeMethod\": \"writeUTF\"",
    "        \x7d,",
    "        \x7b",
    "          \"name\": \"label\",",
    "          \"type\": \"String\",",
    "          \"isVector\": false,",
    "          \"useTypeManager\": false,",
    "          \"useBBW\": false,",
    "          \"writeMethod\": \"writeUTF\"",
    "        \x7d,",
    "        \x7b",
    "          \"name\": \"kamas\",",
    "          \"type\": \"Number\",",
    "          \"isVector\": false,",
    "          \"useTypeManager\": false,",
    "          \"useBBW\": false,",
    "          \"writeMethod\": \"writeVarLong\"",
    "        \x7d,",
    "        \x7b",
    "          \"name\": \"cellId\",",
    "          \"type\": \"int\",",
    "          \"isVector\": false,",
    "          \"useTypeManager\": false,",
    "          \"useBBW\": false,",
    "          \"writeMethod\": \"writeVarShort\"",
    "        \x7d,",
    "        \x7b",
    "          \"name\": \"mapId\",",
    "          \"type\": \"Number\",",
    "          \"isVector\": false,",
    "          \"useTypeManager\": false,",
    "          \"useBBW\": false,",
    "          \"writeMethod\": \"writeDouble\"",
    "        \x7d,",
    "        \x7b",
    "          \"name\": \"type\",",
    "          \"type\": \"int\",",
    "          \"isVector\": false,",
    "          \"useTypeManager\": false,",
    "          \"useBBW\": false,",
    "          \"writeMethod\": \"writeByte\"",
    "        \x7d",
    "      ]",
    "    \x7d,",
    "    \x7b",
    "      \"name\": \"ChatMessage\",",
    "      \"package\": \"com.ankamagames.dofus.network.messages.game.chat\",",
    "      \"protocolId\": 6,",
    "      \"parent\": \"\",",
    "      \"fields\": [",
    "        \x7b",
    "          \"name\": \"content\",",
    "          \"type\": \"String\",",
    "          \"isVector\": false,",
    "          \"useTypeManager\": false,",
    "          \"useBBW\": false,",
    "          \"writeMethod\": \"writeUTF\"",
    "        \x7d,",
    "        \x7b",
    "          \"name\": \"channel\",",
    "          \"type\": \"uint\",",
    "          \"isVector\": false,",
    "          \"useTypeManager\": false,",
    "          \"useBBW\": false,",
    "          \"writeMethod\": \"writeByte\"",
    "        \x7d",
    "      ]",
    "    \x7d,",
    "    \x7b",
    "      \"name\": \"ChatServerMessage\",",
    "      \"package\": \"com.ankamagames.dofus.network.messages.game.chat\",",
    "      \"protocolId\": 7,",
    "      \"parent\": \"ChatMessage\",",
    "      \"fields\": [",
    "        \x7b",
    "          \"name\": \"senderId\",",
    "          \"type\": \"Number\",",
    "          \"isVector\": false,",
    "          \"useTypeManager\": false,",
    "          \"useBBW\": false,",
    "          \"writeMethod\": \"writeDouble\"",
    "        \x7d,",
    "        \x7b",
    "          \"name\": \"senderName\",",
    "          \"type\": \"String\",",
    "          \"isVector\": false,",
    "          \"useTypeManager\": false,",
    "          \"useBBW\": false,",
    "          \"writeMethod\": \"writeUTF\"",
    "        \x7d",
    "      ]",
    "    \x7d,",
    "    \x7b",
    "      \"name\": \"ChatServerCopyMessage\",",
    "      \"package\": \"com.ankamagames.dofus.network.messages.game.chat\",",
    "      \"protocolId\": 8,",
    "      \"parent\": \"ChatServerMessage\",",
    "      \"fields\": [",
    "        \x7b",
    "          \"name\": \"receiverId\",",
    "          \"type\": \"Number\",",
    "          \"isVector\": false,",
    "          \"useTypeManager\": false,",
    "          \"useBBW\": false,",
    "          \"writeMethod\": \"writeVarLong\"",
    "        \x7d,",
    "        \x7b",
    "          \"name\": \"muted\",",
    "          \"type\": \"Boolean\",",
    "          \"isVector\": false,",
    "          \"useTypeManager\": false,",
    "          \"useBBW\": true,",
    "          \"bbwPosition\": 0",
    "        \x7d",
    "      ]",
    "    \x7d",
    "  ],",
    "  \"types\": [",
    "    \x7b",
    "      \"name\": \"Point\",",
    "      \"package\": \"com.ankamagames.dofus.network.types.game\"",
    "    \x7d,",
    "    \x7b",
    "      \"name\": \"ActorInformation\",",
    "      \"package\": \"com.ankamagames.dofus.network.types.game\"",
    "    \x7d,",
    "    \x7b",
    "      \"name\": \"CharacterInformation\",",
    "      \"package\": \"com.ankamagames.dofus.network.types.game\"",
    "    \x7d,",
    "    \x7b",
    "      \"name\": \"MonsterInformation\",",
    "      \"package\": \"com.ankamagames.dofus.network.types.game\"",
    "    \x7d",
    "  ]",
    "\x7d"]

/-- The text of the schema; every line ends in a line feed. -/
def schemaText : String := .join (schemaLines.map (· ++ "\n"))

/-! ## Declarations -/

namespace MessageKind

/-- The package of the message. -/
def package : MessageKind → String
  | ping => "com.ankamagames.dofus.network.messages.common.basic"
  | status => "com.ankamagames.dofus.network.messages.game.basic"
  | flags => "com.ankamagames.dofus.network.messages.game.basic"
  | tags => "com.ankamagames.dofus.network.messages.game.basic"
  | actors => "com.ankamagames.dofus.network.messages.game.context"
  | chat => "com.ankamagames.dofus.network.messages.game.chat"
  | chatServer => "com.ankamagames.dofus.network.messages.game.chat"
  | chatServerCopy => "com.ankamagames.dofus.network.messages.game.chat"

/-- The name of the message that this one extends; an empty one stands for none. -/
def parent : MessageKind → String
  | chatServer => "ChatMessage"
  | chatServerCopy => "ChatServerMessage"
  | _ => ""

/-- The declared fields, in the author's order. -/
def fields : MessageKind → List FieldDecl
  | ping => []
  | status => [.flag "active" 0]
  | flags =>
    [.flag "c" 2, .primitive "count" "int" "writeInt", .flag "a" 0, .flag "b" 1,
      .flag "overflow" 9]
  | tags => [(FieldDecl.primitive "tags" "int" "writeInt").vector]
  | actors =>
    [.object "origin" "Point",
      (FieldDecl.object "actor" "ActorInformation").polymorphic,
      (FieldDecl.object "actors" "ActorInformation").polymorphic.vector,
      (FieldDecl.object "path" "Point").vector,
      (FieldDecl.primitive "names" "String" "writeUTF").vector,
      .primitive "label" "String" "writeUTF",
      .primitive "kamas" "Number" "writeVarLong",
      .primitive "cellId" "int" "writeVarShort",
      .primitive "mapId" "Number" "writeDouble",
      .primitive "type" "int" "writeByte"]
  | chat => [.primitive "content" "String" "writeUTF", .primitive "channel" "uint" "writeByte"]
  | chatServer =>
    [.primitive "senderId" "Number" "writeDouble", .primitive "senderName" "String" "writeUTF"]
  | chatServerCopy => [.primitive "receiverId" "Number" "writeVarLong", .flag "muted" 0]

def declaration (k : MessageKind) : MessageDecl where
  name := k.name
  package := k.package
  protocolId := k.id
  parent := some k.parent
  fields := k.fields

end MessageKind

/-- The value types share a package. -/
def EntityKind.declaration (k : EntityKind) : TypeDecl where
  name := k.name
  package := "com.ankamagames.dofus.network.types.game"

/-- What the text of the schema stands for. -/
def schema : Schema where
  messages := MessageKind.all.map (·.declaration)
  types := EntityKind.all.map (·.declaration)

end WireCodec.Game
