import WireCodec.Naming.SnakeCase

/-!
# Identifiers of the generated code

Names of the schema become Rust identifiers: snake case, with the words that the language keeps for
itself escaped.
-/

namespace WireCodec

/-- Words that are identifiers only when written raw, behind `r#`. -/
def keywords : List String :=
  ["abstract", "as", "async", "await", "become", "box", "break", "const", "continue", "do",
    "dyn", "else", "enum", "extern", "false", "final", "fn", "for", "gen", "if", "impl", "in",
    "let", "loop", "macro", "match", "mod", "move", "mut", "override", "priv", "pub", "ref",
    "return", "static", "struct", "trait", "true", "try", "type", "typeof", "unsafe",
    "unsized", "use", "virtual", "where", "while", "yield"]

/-- Words that are no identifiers even when written raw. -/
def pathWords : List String := ["crate", "self", "Self", "super"]

/-- Makes an identifier of a word. -/
def escapeWord (word : String) : String :=
  if word = "" then "unnamed"
  else if word ∈ pathWords then word ++ "_"
  else if word ∈ keywords then "r#" ++ word
  else if word.toList.head?.any Char.isDigit then "_" ++ word
  else word

/-- The identifier of a schema name: of a field, or of the module of a package or a message. -/
def identifier (name : String) : String := escapeWord (snakeCase name)

end WireCodec
