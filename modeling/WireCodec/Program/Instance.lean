import WireCodec.Program.Run

/-!
# Instances

What the dispatch table makes for a message: a value of it that knows the programs of its message.
-/

namespace WireCodec

/-- A value of a generated message. -/
structure Instance (γ : Type) where
  program : Program
  /-- The layouts of the message and of its ancestors, the nearest first. -/
  layouts : List Layout
  record : Record γ

namespace Instance

variable {γ : Type}

/-- The id that an instance reports. -/
def id (i : Instance γ) : UInt16 := i.program.protocolId

/-- Fills an instance of whichever message it is. -/
def fill (custom : CustomTypes γ) (types : TypeTable γ) : FillM (Instance γ) Unit := fun s =>
  FillM.within (·.record) (fun i r => { i with record := r })
    (Record.fill custom types s.value.layouts) s

end Instance

/-- The default instance of a message. -/
def Schema.freshInstance {γ : Type} (s : Schema) (custom : CustomTypes γ) (m : MessageDecl) :
    Except SchemaError (Instance γ) := do
  let layout ← Layout.plan s m
  let layouts ← s.lineage m
  return { program := .ofLayout m layout, layouts, record := .fresh custom layouts }

end WireCodec
