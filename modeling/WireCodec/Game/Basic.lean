import WireCodec.Wire.Filling
import WireCodec.Wire.FlagByte
import WireCodec.Wire.Sequence

/-!
# Basic messages

An empty message, two messages of flags and a message of tags. Flags come before other fields, each
in a byte of its own.
-/

namespace WireCodec.Game

/-- A message without fields. -/
structure Ping where
  deriving DecidableEq, Repr

namespace Ping

def reset (m : Ping) : Ping := m

def write (_ : Ping) : WriteM Unit := pure ()

def fill : FillM Ping Unit := pure ()

end Ping

/-- Whether something is active. -/
structure StatusMessage where
  active : Bool := false
  deriving DecidableEq, Repr

namespace StatusMessage

def reset (m : StatusMessage) : StatusMessage := { m with active := false }

def write (m : StatusMessage) : WriteM Unit := writeFlag 0 m.active

def fill : FillM StatusMessage Unit := .assign (fun m active => { m with active }) (readFlag 0)

end StatusMessage

/-- Four flags and a number. -/
structure FlagsMessage where
  a : Bool := false
  b : Bool := false
  c : Bool := false
  overflow : Bool := false
  count : Int32 := 0
  deriving DecidableEq, Repr

namespace FlagsMessage

def reset (m : FlagsMessage) : FlagsMessage :=
  { m with a := false, b := false, c := false, overflow := false, count := 0 }

/-- The flags stand at positions 0, 1, 2 and 9; a position counts modulo the eight bits. -/
def write (m : FlagsMessage) : WriteM Unit := do
  writeFlag 0 m.a
  writeFlag 1 m.b
  writeFlag 2 m.c
  writeFlag 1 m.overflow
  writeInt m.count

def fill : FillM FlagsMessage Unit := do
  .assign (fun m a => { m with a }) (readFlag 0)
  .assign (fun m b => { m with b }) (readFlag 1)
  .assign (fun m c => { m with c }) (readFlag 2)
  .assign (fun m overflow => { m with overflow }) (readFlag 1)
  .assign (fun m count => { m with count }) readInt

end FlagsMessage

/-- A list of numbers. -/
structure TagsMessage where
  tags : Array Int32 := #[]
  deriving DecidableEq, Repr

namespace TagsMessage

def reset (m : TagsMessage) : TagsMessage := { m with tags := #[] }

def write (m : TagsMessage) : WriteM Unit := writeSequence writeInt m.tags

def fill : FillM TagsMessage Unit :=
  .extend (fun m tag => { m with tags := m.tags.push tag }) readInt

end TagsMessage

end WireCodec.Game
