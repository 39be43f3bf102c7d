import WireCodec.Wire.Fixed

/-!
# Strings and counts

A string travels as the number of its UTF-8 bytes in two bytes, then those bytes. A sequence starts
with the number of its elements in two bytes. Sizes above `maxSize` are refused before anything is
written.
-/

namespace WireCodec

/-- The largest number that a two-byte length can hold. -/
def maxSize : Nat := 65535

/-- The UTF-8 bytes of a string. -/
def utf8 (s : String) : List UInt8 := s.toByteArray.data.toList

/-- The string with the given UTF-8 bytes, if they are UTF-8. -/
def ofUtf8? (bytes : List UInt8) : Option String := String.fromUTF8? bytes.toByteArray

@[simp] theorem length_utf8 (s : String) : (utf8 s).length = s.utf8ByteSize := by
  simp [utf8, ← String.size_toByteArray, ByteArray.size_data]

theorem ofUtf8?_eq_some_iff {bytes : List UInt8} {s : String} :
    ofUtf8? bytes = some s ↔ bytes = utf8 s := by
  have data : bytes.toByteArray = s.toByteArray ↔ bytes = utf8 s := by
    rw [ByteArray.ext_iff, List.data_toByteArray, utf8, List.toArray_eq_iff]
  rw [← data, ofUtf8?, String.fromUTF8?]
  split
  · simp [String.fromUTF8, ← String.toByteArray_inj]
  · rename_i invalid
    simp only [reduceCtorEq, false_iff]
    intro h
    exact invalid (h ▸ s.isValidUTF8)

@[simp] theorem ofUtf8?_utf8 (s : String) : ofUtf8? (utf8 s) = some s :=
  ofUtf8?_eq_some_iff.2 rfl

def writeUtf (s : String) : WriteM Unit := do
  if maxSize < s.utf8ByteSize then throw (.stringTooLong s.utf8ByteSize)
  writeUnsignedShort (.ofNat s.utf8ByteSize)
  put (utf8 s)

/-- The bytes are read before they are checked. -/
def readUtf : ReadM String := do
  let size ← readUnsignedShort
  let bytes ← take size.toNat
  match ofUtf8? bytes with
  | some s => return s
  | none => throw .invalidUtf8

def writeCount (n : Nat) : WriteM Unit := do
  if maxSize < n then throw (.vectorTooLong n)
  writeUnsignedShort (.ofNat n)

def readCount : ReadM Nat := UInt16.toNat <$> readUnsignedShort

end WireCodec
