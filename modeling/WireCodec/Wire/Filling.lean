import WireCodec.Wire.Text

/-!
# Filling values from the wire

A composite value is read field by field into a value that already exists. A filling is that value
together with the cursor it is read at; when a read fails, the fields filled before it stay filled
and the cursor stays where the failure arose.
-/

namespace WireCodec

/-- A value being filled and the cursor it is filled from. -/
structure Filling (σ : Type) where
  value : σ
  cursor : Cursor

/-- An action on a filling; a failure keeps what was filled before it. -/
abbrev FillM (σ : Type) := EStateM Fault (Filling σ)

namespace FillM

variable {σ τ α : Type}

/-- Reads without touching the value. -/
def reading (read : ReadM α) : FillM σ α := fun ⟨v, c⟩ =>
  match read c with
  | .ok a c => .ok a ⟨v, c⟩
  | .error e c => .error e ⟨v, c⟩

/-- Changes the value without reading. -/
def change (f : σ → σ) : FillM σ Unit := fun ⟨v, c⟩ => .ok () ⟨f v, c⟩

/-- Reads and stores what was read. -/
def assign (store : σ → α → σ) (read : ReadM α) : FillM σ Unit := fun ⟨v, c⟩ =>
  match read c with
  | .ok a c => .ok () ⟨store v a, c⟩
  | .error e c => .error e ⟨v, c⟩

/-- Fills a part of the value in place. -/
def within (part : σ → τ) (store : σ → τ → σ) (fill : FillM τ Unit) : FillM σ Unit :=
    fun ⟨v, c⟩ =>
  match fill ⟨part v, c⟩ with
  | .ok _ s => .ok () ⟨store v s.value, s.cursor⟩
  | .error e s => .error e ⟨store v s.value, s.cursor⟩

/-- Fills what a constructor wraps. -/
def inside (wrap : τ → σ) (inner : τ) (fill : FillM τ Unit) : FillM σ Unit :=
  within (fun _ => inner) (fun _ => wrap) fill

/-- Runs an action so many times. -/
def times (action : FillM σ Unit) : Nat → FillM σ Unit
  | 0 => pure ()
  | n + 1 => do
    action
    times action n

/-- Reads a count, then adds so many elements behind those already there. -/
def extend (push : σ → α → σ) (read : ReadM α) : FillM σ Unit := do
  let count ← reading readCount
  times (assign push read) count

/-- Fills `start` and gives the filled value; on failure it is dropped. -/
def fresh (start : τ) (fill : FillM τ Unit) : ReadM τ := fun c =>
  match fill ⟨start, c⟩ with
  | .ok _ s => .ok s.value s.cursor
  | .error e s => .error e s.cursor

end FillM

end WireCodec
