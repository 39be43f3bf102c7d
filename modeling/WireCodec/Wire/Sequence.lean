import WireCodec.Wire.Text

/-!
# Sequences

A sequence travels as its count and then its elements in order.
-/

namespace WireCodec

variable {α : Type}

/-- Writes the count and then each element; a count that does not fit is refused first. -/
def writeSequence (write : α → WriteM Unit) (xs : Array α) : WriteM Unit := do
  writeCount xs.size
  xs.toList.forM write

end WireCodec
