/-!
# Snake case

`snakeCase` keeps the ASCII letters and digits of a name, lower-cased and in order, and puts one
underscore between two of them where the name has something else in between or where a new word
starts. Acronyms stay together: `NPCDialog` becomes `npc_dialog`.
-/

namespace WireCodec

/-- A new word starts at `c`, right behind `before`: an upper-case letter behind a lower-case one
or a digit, or the last upper-case letter before a lower-case one. ASCII only. -/
def startsWord (before c : Char) (next : Option Char) : Bool :=
  c.isUpper && (before.isLower || before.isDigit || (before.isUpper && next.any Char.isLower))

/-- The snake case of what follows `before`; `started` if a letter or digit stands before it. -/
def snakeCaseFrom (before : Option Char) (started : Bool) : List Char → List Char
  | [] => []
  | c :: rest =>
    if c.isAlphanum then
      let apart := match before with
        | some b => if b.isAlphanum then startsWord b c rest.head? else started
        | none => false
      let word := c.toLower :: snakeCaseFrom (some c) true rest
      if apart then '_' :: word else word
    else snakeCaseFrom (some c) started rest

def snakeCase (name : String) : String := .ofList (snakeCaseFrom none false name.toList)

end WireCodec
