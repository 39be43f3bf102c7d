import WireCodec.Dispatch.TypeTable
import WireCodec.Layout.Basic
import WireCodec.Program.Scalar
import WireCodec.Wire.Sequence

/-!
# Records

A record is a value of a message: the fields that its layout adds, and below them those of the
parent. Custom types are not laid out here; what a program needs of them is given by an interface.
-/

namespace WireCodec

/-- What programs need of the custom types, whose values are those of `γ`. -/
structure CustomTypes (γ : Type) where
  /-- The default value of a type. -/
  fresh : TypeRef → γ
  /-- The id that a value reports. -/
  typeId : γ → UInt16
  write : γ → WriteM Unit
  fill : TypeTable γ → FillM γ Unit

/-- A value by itself: of a primitive type or of a custom one. -/
inductive Element (γ : Type)
  | scalar (v : Scalar)
  | object (v : γ)

/-- The value of a field: one element, or a sequence of them. -/
inductive FieldValue (γ : Type)
  | single (e : Element γ)
  | sequence (es : Array (Element γ))

/-- The values of the fields that one layout adds, under their identifiers. -/
structure Level (γ : Type) where
  fields : List (String × FieldValue γ)

/-- A value of a message: its own fields first, then those of its ancestors, the nearest first. -/
abbrev Record (γ : Type) := List (Level γ)

variable {γ : Type}

namespace Level

/-- The value of a field. -/
def get? (l : Level γ) (field : String) : Option (FieldValue γ) := l.fields.lookup field

/-- Changes the value of a field. -/
def modify (l : Level γ) (field : String) (f : FieldValue γ → FieldValue γ) : Level γ :=
  ⟨l.fields.map fun (ident, v) => (ident, if ident = field then f v else v)⟩

/-- Replaces the value of a field. -/
def set (l : Level γ) (field : String) (v : FieldValue γ) : Level γ := l.modify field fun _ => v

/-- Replaces the value of a field by one element. -/
def setSingle (l : Level γ) (field : String) (e : Element γ) : Level γ := l.set field (.single e)

end Level

/-- A sequence with one more element. -/
def FieldValue.push : FieldValue γ → Element γ → FieldValue γ
  | sequence es, e => sequence (es.push e)
  | single e, _ => single e

/-- The value with which a field starts. -/
def Initial.value (custom : CustomTypes γ) : Initial → FieldValue γ
  | default p => .single (.scalar (.ofPrimitive p))
  | newInstance t => .single (.object (custom.fresh t))
  | boxedInstance t => .single (.object (custom.fresh t))
  | emptySequence => .sequence #[]

/-- The fields of a layout with the values with which they start. -/
def Layout.fresh (custom : CustomTypes γ) (l : Layout) : Level γ :=
  ⟨l.flags.map (fun f => (f.ident, .single (.scalar (.boolean false)))) ++
    l.fields.map fun f => (f.ident, f.initial.value custom)⟩

/-- The default value of a message, given its layout and those of its ancestors. -/
def Record.fresh (custom : CustomTypes γ) (layouts : List Layout) : Record γ :=
  layouts.map (·.fresh custom)

end WireCodec
