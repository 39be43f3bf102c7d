/-!
# Source lines

Generated code is a list of lines, each with a text and a depth of indentation. Blocks nest by
raising the depth of the lines inside, so every block that is opened is closed at its own depth.
-/

namespace WireCodec

/-- A line of code; one without text is blank. -/
structure Line where
  depth : Nat
  text : String
  deriving DecidableEq, Repr

namespace Line

/-- A line at the outermost depth. -/
def outer (text : String) : Line := ⟨0, text⟩

def blank : Line := outer ""

/-- The line one level further in. -/
def deeper (l : Line) : Line := { l with depth := l.depth + 1 }

/-- The line as text: four spaces for each level, except on a blank line. -/
def print (l : Line) : String :=
  if l.text = "" then "\n" else .ofList (.replicate (4 * l.depth) ' ') ++ l.text ++ "\n"

end Line

namespace Source

/-- Lines between an opening and a closing line. -/
def block (opening : String) (body : List Line) (closing : String) : List Line :=
  .outer opening :: body.map Line.deeper ++ [.outer closing]

/-- The groups that are not empty, with a blank line between each two. -/
def spaced (groups : List (List Line)) : List Line :=
  [Line.blank].intercalate (groups.filter (!·.isEmpty))

/-- The code as text. -/
def print (lines : List Line) : String := .join (lines.map Line.print)

/-- A line of a text without the carriage return before its line feed. -/
def withoutReturn (cs : List Char) : List Char :=
  if cs.getLast? = some '\r' then cs.dropLast else cs

/-- The lines of a text; what stands behind the last line feed is a line unless it is empty. -/
def linesOf (text : String) : List Line :=
  let parts := text.toList.splitOn '\n'
  let last := parts.getLast?.getD []
  (parts.dropLast.map withoutReturn ++ if last.isEmpty then [] else [last]).map fun cs =>
    .outer (.ofList cs)

end Source

end WireCodec
