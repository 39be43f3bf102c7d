import WireCodec.Wire.Fault

/-!
# Input cursors

A cursor is a position in the input together with the bytes not yet read. Reading `n` bytes either
moves the cursor over exactly those bytes or leaves it where it was and says how many are missing.
-/

namespace WireCodec

/-- A position in the input and the bytes from there to its end. -/
structure Cursor where
  position : Nat := 0
  rest : List UInt8
  deriving DecidableEq, Repr

/-- An action that reads at a cursor and may fail; a failure keeps the cursor where it arose. -/
abbrev ReadM := EStateM Fault Cursor

namespace Cursor

/-- The cursor at the start of `bytes`. -/
def start (bytes : List UInt8) : Cursor := ⟨0, bytes⟩

def remaining (c : Cursor) : Nat := c.rest.length

def isEmpty (c : Cursor) : Bool := c.rest.isEmpty

/-- The cursor moved over the next `n` bytes. -/
def advance (c : Cursor) (n : Nat) : Cursor := ⟨c.position + n, c.rest.drop n⟩

end Cursor

/-- The next `n` bytes. -/
def take (n : Nat) : ReadM (List UInt8) := fun c =>
  let taken := c.rest.take n
  if taken.length < n then .error (.unexpectedEnd (n - taken.length)) c
  else .ok taken (c.advance n)

theorem run_take_of_le {n : Nat} {c : Cursor} (h : n ≤ c.remaining) :
    (take n).run c = .ok (c.rest.take n) (c.advance n) := by
  simp [take, EStateM.run, Cursor.remaining] at *
  omega

theorem run_take_of_lt {n : Nat} {c : Cursor} (h : c.remaining < n) :
    (take n).run c = .error (.unexpectedEnd (n - c.remaining)) c := by
  simp only [Cursor.remaining] at h
  simp [take, EStateM.run, Cursor.remaining, Nat.min_eq_right (Nat.le_of_lt h), h]

/-- The next byte. -/
def takeByte : ReadM UInt8 := fun c =>
  match c.rest with
  | [] => .error (.unexpectedEnd 1) c
  | b :: rest => .ok b ⟨c.position + 1, rest⟩

@[simp] theorem run_takeByte_cons (p : Nat) (b : UInt8) (rest : List UInt8) :
    takeByte.run ⟨p, b :: rest⟩ = .ok b ⟨p + 1, rest⟩ := rfl

@[simp] theorem run_takeByte_nil (p : Nat) :
    takeByte.run ⟨p, []⟩ = .error (.unexpectedEnd 1) ⟨p, []⟩ := rfl

end WireCodec
