import WireCodec.Dispatch.IdTable
import WireCodec.Wire.Filling

/-!
# Tables of types

Where the type of a value is open, the value travels behind a type id, and a table of types says
from which value the reader starts to fill it.
-/

namespace WireCodec

/-- For each type id, the value from which values of the type are filled. -/
abbrev TypeTable (τ : Type) := IdTable τ

namespace TypeTable

variable {τ : Type}

def register (types : TypeTable τ) (id : UInt16) (start : τ) : Except Fault (TypeTable τ) :=
  IdTable.register .duplicateTypeId types id start

def ofEntries (entries : List (UInt16 × τ)) : Except Fault (TypeTable τ) :=
  IdTable.ofEntries .duplicateTypeId entries

/-- The value from which the type of an id starts. -/
def create (types : TypeTable τ) (id : UInt16) : Except Fault τ :=
  IdTable.get .unknownTypeId types id

/-- Reads a type id and gives the value from which its type starts; the id is read even if it is
unknown. -/
def readInstance (types : TypeTable τ) : ReadM τ := do
  let id ← readUnsignedShort
  MonadExcept.ofExcept (types.create id)

/-- Reads a value behind the id of its type. -/
def readValue (types : TypeTable τ) (fill : FillM τ Unit) : ReadM τ := do
  let start ← types.readInstance
  FillM.fresh start fill

end TypeTable

end WireCodec
