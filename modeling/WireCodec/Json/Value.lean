import WireCodec.Json.Token

/-!
# JSON values

A value is built from its tokens one at a time. The builder holds the arrays and objects that are
still open, the innermost first, and what may come next; no depth of nesting is too great for it.
-/

namespace WireCodec

/-- A JSON value. Numbers keep their spelling, and a string with an unpaired surrogate no text. -/
inductive JsonValue
  | null
  | bool (b : Bool)
  | number (literal : String)
  | string (text : Option String)
  | array (items : List JsonValue)
  | object (members : List (Option String × JsonValue))

namespace JsonValue

/-- An array or object that is still open, its elements so far in reverse. -/
inductive Open
  | array (items : List JsonValue)
  | object (members : List (Option String × JsonValue))
  | member (key : Option String) (before : List (Option String × JsonValue))

/-- What a builder waits for. -/
inductive Awaiting
  | value
  | itemOrEnd
  | key
  | keyOrEnd
  | colon
  | commaOrEnd

/-- The state of reading a value. -/
inductive Builder
  | reading (awaiting : Awaiting) (stack : List Open)
  | done (v : JsonValue)

namespace Builder

/-- The state after a value that stands in the innermost of the given open ones. -/
def complete (v : JsonValue) : List Open → Option Builder
  | [] => some (done v)
  | .array items :: stack => some (reading .commaOrEnd (.array (v :: items) :: stack))
  | .member key members :: stack =>
    some (reading .commaOrEnd (.object ((key, v) :: members) :: stack))
  | .object _ :: _ => none

/-- The state after the first token of a value. -/
def start (stack : List Open) : JsonToken → Option Builder
  | .null => complete .null stack
  | .bool b => complete (.bool b) stack
  | .number literal => complete (.number literal) stack
  | .string text => complete (.string text) stack
  | .openBracket => some (reading .itemOrEnd (.array [] :: stack))
  | .openBrace => some (reading .keyOrEnd (.object [] :: stack))
  | _ => none

/-- The state after one more token. -/
def step : Builder → JsonToken → Option Builder
  | reading .itemOrEnd (.array [] :: stack), .closeBracket => complete (.array []) stack
  | reading .itemOrEnd stack, token => start stack token
  | reading .value stack, token => start stack token
  | reading .keyOrEnd (.object [] :: stack), .closeBrace => complete (.object []) stack
  | reading .keyOrEnd (.object members :: stack), .string key =>
    some (reading .colon (.member key members :: stack))
  | reading .key (.object members :: stack), .string key =>
    some (reading .colon (.member key members :: stack))
  | reading .colon stack, .colon => some (reading .value stack)
  | reading .commaOrEnd (.array items :: stack), .comma =>
    some (reading .value (.array items :: stack))
  | reading .commaOrEnd (.object members :: stack), .comma =>
    some (reading .key (.object members :: stack))
  | reading .commaOrEnd (.array items :: stack), .closeBracket =>
    complete (.array items.reverse) stack
  | reading .commaOrEnd (.object members :: stack), .closeBrace =>
    complete (.object members.reverse) stack
  | _, _ => none

end Builder

/-- The value of a sequence of tokens. -/
def ofTokens? (tokens : List JsonToken) : Option JsonValue :=
  match tokens.foldlM Builder.step (.reading .value []) with
  | some (.done v) => some v
  | _ => none

/-- The value of a text. -/
def ofText? (text : String) : Option JsonValue := JsonToken.scan? text.toList >>= ofTokens?

end JsonValue

end WireCodec
