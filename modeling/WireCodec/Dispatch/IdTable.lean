import WireCodec.Wire.Fault

/-!
# Tables by id

A table holds at most one entry per two-byte id, in ascending order of ids. Adding an entry under an
id that is taken is refused, so the first entry of an id stays.
-/

namespace WireCodec

/-- Entries by id, the ids strictly ascending. -/
structure IdTable (α : Type) where
  entries : List (UInt16 × α) := []
  ascending : entries.Pairwise (·.1 < ·.1) := by exact .nil

namespace IdTable

variable {α : Type}

/-- The entry under an id. -/
def find? (t : IdTable α) (id : UInt16) : Option α := t.entries.lookup id

def contains (t : IdTable α) (id : UInt16) : Bool := (t.find? id).isSome

/-- The ids of the entries in ascending order. -/
def ids (t : IdTable α) : List UInt16 := t.entries.map (·.1)

def size (t : IdTable α) : Nat := t.entries.length

def isEmpty (t : IdTable α) : Bool := t.entries.isEmpty

/-- Puts an entry in front of the first one with a larger id. -/
def place (id : UInt16) (a : α) : List (UInt16 × α) → List (UInt16 × α)
  | [] => [(id, a)]
  | e :: es => if id < e.1 then (id, a) :: e :: es else e :: place id a es

theorem mem_place {id : UInt16} {a : α} {e : UInt16 × α} {es : List (UInt16 × α)} :
    e ∈ place id a es ↔ e = (id, a) ∨ e ∈ es := by
  induction es with
  | nil => simp [place]
  | cons x es ih =>
    rw [place]
    split
    · simp
    · simp only [List.mem_cons, ih]
      grind

theorem pairwise_place {id : UInt16} {a : α} {es : List (UInt16 × α)}
    (free : es.lookup id = none) (ascending : es.Pairwise (·.1 < ·.1)) :
    (place id a es).Pairwise (·.1 < ·.1) := by
  induction es with
  | nil => simp [place]
  | cons x es ih =>
    rw [place]
    rw [List.pairwise_cons] at ascending
    split
    · rename_i below
      refine List.pairwise_cons.2 ⟨fun e he => ?_, List.pairwise_cons.2 ascending⟩
      rcases List.mem_cons.1 he with rfl | he
      · exact below
      · exact UInt16.lt_trans below (ascending.1 e he)
    · rename_i notBelow
      have ⟨differ, free⟩ := List.forall_mem_cons.1 (List.lookup_eq_none_iff.1 free)
      refine List.pairwise_cons.2
        ⟨fun e he => ?_, ih (List.lookup_eq_none_iff.2 free) ascending.2⟩
      rcases mem_place.1 he with rfl | he
      · exact UInt16.lt_of_le_of_ne (UInt16.not_lt.1 notBelow) (Ne.symm (bne_iff_ne.1 differ))
      · exact ascending.1 e he

/-- The table with one more entry, unless its id is taken. -/
def insert? (t : IdTable α) (id : UInt16) (a : α) : Option (IdTable α) :=
  match h : t.entries.lookup id with
  | some _ => none
  | none => some ⟨place id a t.entries, pairwise_place h t.ascending⟩

/-- Adds an entry; `taken` is the fault if there is one under its id. -/
def register (taken : UInt16 → Fault) (t : IdTable α) (id : UInt16) (a : α) :
    Except Fault (IdTable α) :=
  match t.insert? id a with
  | some t => .ok t
  | none => .error (taken id)

/-- The table of the given entries, added in order. -/
def ofEntries (taken : UInt16 → Fault) (entries : List (UInt16 × α)) : Except Fault (IdTable α) :=
  entries.foldlM (fun t (id, a) => t.register taken id a) {}

/-- The entry under an id; `unknown` is the fault if there is none. -/
def get (unknown : UInt16 → Fault) (t : IdTable α) (id : UInt16) : Except Fault α :=
  match t.find? id with
  | some a => .ok a
  | none => .error (unknown id)

end IdTable

end WireCodec
