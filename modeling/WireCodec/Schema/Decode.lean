import WireCodec.Json.Value
import WireCodec.Schema.Basic
import WireCodec.Schema.Error

/-!
# Schemas as JSON

A record is written as an object with its fields in any order, or as an array of them in the order
of declaration. A field that is left out takes its default if it has one. In an object unknown keys
are skipped and a known key must not be repeated; in an array only fields at the end can be left
out. A null stands for an absent value where one may be absent, and is refused elsewhere.
-/

namespace WireCodec

namespace JsonValue

def bool? : JsonValue → Option Bool
  | .bool b => some b
  | _ => none

def text? : JsonValue → Option String
  | .string text => text
  | _ => none

/-- The number spelled by decimal digits. -/
def decimal (digits : List Char) : Nat :=
  digits.foldl (fun n digit => 10 * n + (digit.toNat - '0'.toNat)) 0

/-- A whole number below a bound, written without sign, fraction and exponent. -/
def natBelow? (bound : Nat) : JsonValue → Option Nat
  | .number literal =>
    let digits := literal.toList
    if digits.all Char.isDigit ∧ decimal digits < bound then some (decimal digits) else none
  | _ => none

/-- A value, or a null in its place. -/
def nullable? {α : Type} (decode : JsonValue → Option α) : JsonValue → Option (Option α)
  | .null => some none
  | v => some <$> decode v

/-- The elements of an array. -/
def list? {α : Type} (decode : JsonValue → Option α) : JsonValue → Option (List α)
  | .array items => items.mapM decode
  | _ => none

/-- The value of a key in an object's members, which must not hold it twice. -/
def member? (members : List (String × JsonValue)) (key : String) : Option (Option JsonValue) :=
  match members.filter (·.1 = key) with
  | [] => some none
  | [(_, v)] => some (some v)
  | _ => none

/-- The values of a record's fields, in the order of their names, as far as they are written. -/
def record? (names : List String) : JsonValue → Option (List (Option JsonValue))
  | .object members => do
    let members ← members.mapM fun (key, v) => (·, v) <$> key
    names.mapM (member? members)
  | .array items =>
    if items.length ≤ names.length then
      some (items.map some ++ .replicate (names.length - items.length) none)
    else none
  | _ => none

/-- A field of a record, or its default if it is left out. -/
def orDefault {α : Type} (decode : JsonValue → Option α) (default : α) :
    Option JsonValue → Option α
  | some v => decode v
  | none => some default

end JsonValue

open JsonValue

namespace FieldDecl

def ofJson? (v : JsonValue) : Option FieldDecl := do
  match ← record? ["name", "type", "isVector", "useTypeManager", "useBBW", "bbwPosition",
    "writeMethod"] v with
  | [name, typeName, isVector, isOpen, isFlag, flagPosition, writeMethod] =>
    return {
      name := ← name >>= text?
      typeName := ← typeName >>= text?
      isVector := ← orDefault bool? false isVector
      isOpen := ← orDefault bool? false isOpen
      isFlag := ← orDefault bool? false isFlag
      flagPosition :=
        Option.map UInt32.ofNat (← orDefault (nullable? (natBelow? UInt32.size)) none flagPosition)
      writeMethod := ← orDefault (nullable? text?) none writeMethod }
  | _ => none

end FieldDecl

namespace MessageDecl

def ofJson? (v : JsonValue) : Option MessageDecl := do
  match ← record? ["name", "package", "protocolId", "parent", "fields"] v with
  | [name, package, protocolId, parent, fields] =>
    return {
      name := ← name >>= text?
      package := ← orDefault text? "" package
      protocolId := .ofNat (← protocolId >>= natBelow? UInt16.size)
      parent := ← orDefault (nullable? text?) none parent
      fields := ← orDefault (list? FieldDecl.ofJson?) [] fields }
  | _ => none

end MessageDecl

namespace TypeDecl

def ofJson? (v : JsonValue) : Option TypeDecl := do
  match ← record? ["name", "package"] v with
  | [name, package] => return { name := ← name >>= text?, package := ← orDefault text? "" package }
  | _ => none

end TypeDecl

namespace Schema

def ofJson? (v : JsonValue) : Option Schema := do
  match ← record? ["messages", "types"] v with
  | [messages, types] =>
    return {
      messages := ← orDefault (list? MessageDecl.ofJson?) [] messages
      types := ← orDefault (list? TypeDecl.ofJson?) [] types }
  | _ => none

/-- The schema of a JSON text. -/
def ofText? (text : String) : Option Schema := JsonValue.ofText? text >>= ofJson?

/-- Reads a schema from its JSON text. -/
def ofText (text : String) : Except SchemaError Schema :=
  match ofText? text with
  | some s => .ok s
  | none => .error .malformed

end Schema

end WireCodec
