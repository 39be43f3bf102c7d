import WireCodec.Source.Dispatch
import WireCodec.Source.Message

/-!
# Artifacts

An artifact is one generated module with its place. A run produces one for each message, in the
order of the schema, and one each for the dispatch table and the index; or it produces none. The
table is checked before any message is laid out.
-/

namespace WireCodec

/-- A generated module. -/
structure Artifact where
  /-- The message, or the module itself if it is no message's. -/
  name : String
  /-- The file, below the directory of the generated code. -/
  path : String
  modulePath : String
  /-- The segments of the module, below the root of the messages. -/
  segments : List String
  /-- The name that the enclosing module exports. -/
  reexport : Option String
  source : String
  deriving DecidableEq, Repr

/-- What a run produces. -/
structure Output where
  messages : List Artifact
  registry : Artifact
  index : Artifact
  deriving DecidableEq, Repr

namespace Artifact

/-- The artifact of a message. -/
def ofMessage (settings : Settings) (s : Schema) (m : MessageDecl) :
    Except SchemaError Artifact := do
  let layout ← Layout.plan s m
  let segments := settings.messageSegments m.package m.name
  return {
    name := m.name
    path := filePath segments
    modulePath := settings.messageModule m.package m.name
    segments
    reexport := some m.name
    source := Source.print (Source.moduleLines settings m layout (.ofLayout m layout)) }

/-- The artifact of a module of the run's own. -/
def ofModule (settings : Settings) (name : String) (lines : List Line) : Artifact where
  name := name
  path := filePath [name]
  modulePath := settings.messagesRoot ++ "::" ++ name
  segments := [name]
  reexport := none
  source := Source.print lines

end Artifact

/-- Generates every artifact of a schema. -/
def Schema.generate (s : Schema) (settings : Settings) : Except SchemaError Output := do
  let plan ← s.dispatchPlan settings
  let messages ← s.messages.mapM (Artifact.ofMessage settings s)
  return {
    messages
    registry := .ofModule settings registryModule (Source.registryLines settings plan)
    index := .ofModule settings indexModule (Source.indexLines plan) }

namespace Output

/-- The artifacts: of the messages, of the dispatch table and of the index. -/
def artifacts (o : Output) : List Artifact := o.messages ++ [o.registry, o.index]

/-- The artifact of a message. -/
def message? (o : Output) (name : String) : Option Artifact := o.messages.find? (·.name = name)

end Output

end WireCodec
