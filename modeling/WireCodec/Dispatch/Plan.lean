import WireCodec.Naming.Path
import WireCodec.Schema.Basic
import WireCodec.Schema.Error

/-!
# The plan of the dispatch table

The generated dispatch table has one entry per message, in the order of the schema. No two messages
share an id, a name or a module, and none takes the module of the table or of the index.
-/

namespace WireCodec

/-- An entry of the dispatch table. -/
structure DispatchEntry where
  protocolId : UInt16
  name : String
  /-- The path of the message. -/
  path : String
  deriving DecidableEq, Repr

/-- The module of the dispatch table. -/
def registryModule : String := "registry"

/-- The module that exports every message by name. -/
def indexModule : String := "index"

namespace DispatchEntry

/-- The entry of a message. -/
def ofMessage (settings : Settings) (m : MessageDecl) : DispatchEntry :=
  ⟨m.protocolId, m.name, settings.messagePath m.package m.name⟩

end DispatchEntry

/-- Who holds which module: the run's own modules and the given messages. -/
def moduleHolders (settings : Settings) (ms : List MessageDecl) : List (String × String) :=
  ([registryModule, indexModule].map fun name => (settings.messageModule "" name, name)) ++
    ms.map fun m => (settings.messageModule m.package m.name, m.name)

/-- Refuses a message whose id, name or module is taken, in this order. -/
def refuseRepeat (settings : Settings) (earlier : List MessageDecl) (m : MessageDecl) :
    Except SchemaError Unit := do
  if let some first := earlier.find? (·.protocolId = m.protocolId) then
    throw (.duplicateProtocolId m.protocolId first.name m.name)
  if earlier.any (·.name = m.name) then throw (.duplicateMessageName m.name)
  let path := settings.messageModule m.package m.name
  if let some first := (moduleHolders settings earlier).lookup path then
    throw (.duplicateModulePath path first m.name)

/-- The entries of messages that follow earlier ones. -/
def entriesAfter (settings : Settings) (earlier : List MessageDecl) :
    List MessageDecl → Except SchemaError (List DispatchEntry)
  | [] => .ok []
  | m :: ms => do
    refuseRepeat settings earlier m
    let entries ← entriesAfter settings (earlier ++ [m]) ms
    return .ofMessage settings m :: entries

/-- The plan of the dispatch table: its entries in the order of the schema. -/
structure DispatchPlan where
  entries : List DispatchEntry := []
  deriving DecidableEq, Repr

namespace DispatchPlan

def size (plan : DispatchPlan) : Nat := plan.entries.length

def isEmpty (plan : DispatchPlan) : Bool := plan.entries.isEmpty

/-- The entry of an id. -/
def find? (plan : DispatchPlan) (id : UInt16) : Option DispatchEntry :=
  plan.entries.find? (·.protocolId = id)

end DispatchPlan

/-- The plan of a schema's dispatch table. -/
def Schema.dispatchPlan (s : Schema) (settings : Settings) : Except SchemaError DispatchPlan :=
  DispatchPlan.mk <$> entriesAfter settings [] s.messages

end WireCodec
