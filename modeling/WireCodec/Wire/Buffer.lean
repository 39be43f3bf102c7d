import WireCodec.Wire.Fault

/-!
# Output buffers

A buffer holds the bytes written so far. Writing only ever appends: the view `Buffer.toList` of a
buffer after `put xs` is the view before it followed by `xs`.
-/

namespace WireCodec

/-- The bytes written so far. -/
structure Buffer where
  bytes : ByteArray := .empty

namespace Buffer

/-- The bytes in the order in which they were written. -/
def toList (b : Buffer) : List UInt8 := b.bytes.data.toList

def size (b : Buffer) : Nat := b.bytes.size

def isEmpty (b : Buffer) : Bool := b.size == 0

/-- The buffer with `xs` written at its end. -/
def append (b : Buffer) (xs : List UInt8) : Buffer := ⟨b.bytes ++ xs.toByteArray⟩

@[simp] theorem toList_empty : ({} : Buffer).toList = [] := rfl

@[simp] theorem toList_append (b : Buffer) (xs : List UInt8) :
    (b.append xs).toList = b.toList ++ xs := by
  simp [toList, append]

theorem size_eq_length (b : Buffer) : b.size = b.toList.length := by
  simp [size, toList, ByteArray.size_data]

/-- A buffer is determined by the bytes it holds. -/
theorem ext_toList {a b : Buffer} (h : a.toList = b.toList) : a = b := by
  cases a; cases b
  simpa [toList, ByteArray.ext_iff, Array.toList_inj] using h

end Buffer

/-- An action that writes to a buffer and may fail; a failure keeps what was written before it. -/
abbrev WriteM := EStateM Fault Buffer

/-- Writes the given bytes. -/
def put (xs : List UInt8) : WriteM Unit := modify (·.append xs)

@[simp] theorem run_put (xs : List UInt8) (b : Buffer) :
    (put xs).run b = .ok () (b.append xs) := rfl

end WireCodec
