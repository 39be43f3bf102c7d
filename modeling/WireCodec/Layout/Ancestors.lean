import WireCodec.Schema.Basic
import WireCodec.Schema.Error

/-!
# Ancestors

The ancestors of a message are found by following the names of parents. The walk ends: each step
goes on to a name not met before, and the schema has only so many.
-/

namespace WireCodec

theorem length_filter_notMem_lt {ms : List MessageDecl} {m : MessageDecl} {names : List String}
    (mem : m ∈ ms) (new : m.name ∉ names) :
    (ms.filter (·.name ∉ m.name :: names)).length < (ms.filter (·.name ∉ names)).length := by
  have split : ms.filter (·.name ∉ m.name :: names) =
      (ms.filter (·.name ∉ names)).filter (·.name ≠ m.name) := by
    rw [List.filter_filter]
    congr 1
    funext x
    simp
  rw [split]
  refine List.length_filter_lt_length_iff_exists.2 ⟨m, ?_, by simp⟩
  simp [mem, new]

namespace Schema

/-- The ancestors of `current`, the nearest first, on behalf of the message `start`. No name in
`met` may come up again. -/
def ancestorsFrom (s : Schema) (start : String) (met : List String) (current : MessageDecl) :
    Except SchemaError (List MessageDecl) :=
  match current.parentName with
  | none => .ok []
  | some name =>
    match _found : s.message? name with
    | none => .error (.unresolvedParent current.name name)
    | some parent =>
      if _new : parent.name ∈ met then .error (.inheritanceCycle start)
      else (parent :: ·) <$> s.ancestorsFrom start (parent.name :: met) parent
termination_by (s.messages.filter (·.name ∉ met)).length
decreasing_by exact length_filter_notMem_lt (List.mem_of_find?_eq_some _found) _new

/-- The ancestors of a message, the nearest first. -/
def ancestors (s : Schema) (m : MessageDecl) : Except SchemaError (List MessageDecl) :=
  s.ancestorsFrom m.name [m.name] m

end Schema

end WireCodec
