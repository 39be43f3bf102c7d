import WireCodec.Dispatch.Plan
import WireCodec.Source.Line

/-!
# The modules of the dispatch table and of the index
-/

namespace WireCodec.Source

/-- The constant that lists every message. -/
def tableLines (settings : Settings) (entries : List DispatchEntry) : List Line :=
  if entries.isEmpty then [.outer "pub const MESSAGES: &[(u16, MessageFactory)] = &[];"]
  else
    block "pub const MESSAGES: &[(u16, MessageFactory)] = &["
      (entries.map fun e => .outer
        ("(" ++ toString e.protocolId ++ ", " ++ settings.runtimeCrate ++ "::factory::<" ++
          e.path ++ ">),"))
      "];"

/-- The module of the dispatch table. -/
def registryLines (settings : Settings) (plan : DispatchPlan) : List Line :=
  spaced
    [[.outer "// Message dispatch table: generated by protogen, do not edit."],
      ["MessageFactory", "MessageRegistry", "Result"].map fun name =>
        .outer ("use " ++ settings.runtimeCrate ++ "::" ++ name ++ ";"),
      .outer "/// Every message of the protocol as `(protocol id, factory)`, in schema order." ::
        tableLines settings plan.entries,
      .outer "/// Builds the runtime dispatch table from `MESSAGES`." ::
        block "pub fn message_registry() -> Result<MessageRegistry> \x7b"
          [.outer "MessageRegistry::from_entries(MESSAGES)"] "\x7d"]

/-- The module that exports every message by name. -/
def indexLines (plan : DispatchPlan) : List Line :=
  spaced
    [[.outer "// Message index: generated by protogen, do not edit."],
      plan.entries.map fun e => .outer ("pub use " ++ e.path ++ ";")]

end WireCodec.Source
