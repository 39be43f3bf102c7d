import WireCodec.Layout.Plan
import WireCodec.Schema.Basic

/-!
# Programs

The three programs of a message: to reset it, to write it and to read it. Each runs the parent's
program first, then has one operation per flag and one per field, in the order of the layout.
-/

namespace WireCodec

/-- One operation of a program. -/
inductive Op
  /-- Runs the parent's program of the same purpose. -/
  | delegateParent
  | resetFlag (field : String)
  | writeFlag (field : String) (bit : UInt8)
  | readFlag (field : String) (bit : UInt8)
  | resetField (field : String) (initial : Initial)
  | writePrimitive (field : String) (method : Method) (p : Primitive)
  | readPrimitive (field : String) (method : Method) (p : Primitive)
  | writeObject (field : String)
  /-- Replaces the field by a default value and fills that. -/
  | readObject (field : String) (t : TypeRef)
  /-- Writes the type id, then the value. -/
  | writeTypedObject (field : String)
  /-- Replaces the field by a value of the type whose id is read, and fills that. -/
  | readTypedObject (field : String)
  | writePrimitiveVector (field : String) (method : Method) (p : Primitive)
  | readPrimitiveVector (field : String) (method : Method) (p : Primitive)
  | writeObjectVector (field : String) (isOpen : Bool)
  | readObjectVector (field : String) (t : TypeRef) (isOpen : Bool)
  | nop
  deriving DecidableEq, Repr

namespace Op

/-- Whether the operation looks up types by their ids. -/
def usesTypes : Op → Bool
  | delegateParent => true
  | readObject .. => true
  | readTypedObject _ => true
  | readObjectVector .. => true
  | _ => false

/-- The operation that writes a field. -/
def writing (f : FieldSlot) : Op :=
  match f.encoding with
  | .primitive method p => writePrimitive f.ident method p
  | .primitiveVector method p => writePrimitiveVector f.ident method p
  | .object _ => writeObject f.ident
  | .polymorphic _ => writeTypedObject f.ident
  | .objectVector _ isOpen => writeObjectVector f.ident isOpen

/-- The operation that reads a field. -/
def reading (f : FieldSlot) : Op :=
  match f.encoding with
  | .primitive method p => readPrimitive f.ident method p
  | .primitiveVector method p => readPrimitiveVector f.ident method p
  | .object t => readObject f.ident t
  | .polymorphic _ => readTypedObject f.ident
  | .objectVector t isOpen => readObjectVector f.ident t isOpen

end Op

namespace Layout

/-- A program that delegates to the parent, if there is one, and then treats each flag and field;
one without anything to do has a single idle operation. -/
def program (l : Layout) (onFlag : FlagSlot → Op) (onField : FieldSlot → Op) : List Op :=
  let ops := (if l.parent.isSome then [.delegateParent] else []) ++ l.flags.map onFlag ++
    l.fields.map onField
  if ops.isEmpty then [.nop] else ops

/-- What is made of each operation of a program: of the delegation, of each flag and of each field.
Idling adds nothing. -/
theorem flatMap_program {α : Type} {l : Layout} {onFlag : FlagSlot → Op} {onField : FieldSlot → Op}
    {f : Op → List α} (idle : f .nop = []) :
    (l.program onFlag onField).flatMap f =
      (if l.parent.isSome then f .delegateParent else []) ++
        l.flags.flatMap (fun slot => f (onFlag slot)) ++
        l.fields.flatMap fun slot => f (onField slot) := by
  have orIdle (ops : List Op) : (if ops.isEmpty then [.nop] else ops).flatMap f = ops.flatMap f := by
    cases ops with
    | nil => simp [idle]
    | cons op ops => rfl
  rw [program, orIdle, List.flatMap_append, List.flatMap_append, List.flatMap_map,
    List.flatMap_map]
  cases l.parent <;> simp

/-- The program that resets. -/
def resetProgram (l : Layout) : List Op :=
  l.program (.resetFlag ·.ident) fun f => .resetField f.ident f.initial

/-- The program that writes. -/
def writeProgram (l : Layout) : List Op := l.program (fun f => .writeFlag f.ident f.bit) .writing

/-- The program that reads. -/
def readProgram (l : Layout) : List Op := l.program (fun f => .readFlag f.ident f.bit) .reading

end Layout

/-- The programs of a message. -/
structure Program where
  name : String
  protocolId : UInt16
  parent : Option String
  reset : List Op
  serialize : List Op
  deserialize : List Op
  deriving DecidableEq, Repr

/-- The programs of a message with the given layout. -/
def Program.ofLayout (m : MessageDecl) (l : Layout) : Program where
  name := m.name
  protocolId := m.protocolId
  parent := l.parent.map (·.name)
  reset := l.resetProgram
  serialize := l.writeProgram
  deserialize := l.readProgram

end WireCodec
