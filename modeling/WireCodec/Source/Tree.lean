import WireCodec.Source.Artifact

/-!
# The tree of modules

All artifacts of a run can be nested into one text. A module of the tree holds the source of its own
artifact if it has one, then the exports of the messages right below it, then the modules below it
in the order of their names.
-/

namespace WireCodec

/-- An artifact and the segments that lead to it from a module of the tree. -/
structure Placed where
  segments : List String
  artifact : Artifact
  deriving DecidableEq, Repr

namespace Placed

/-- The artifacts below the module of a name, placed from there. -/
def below (name : String) (ps : List Placed) : List Placed :=
  ps.filterMap fun p =>
    match p.segments with
    | [] => none
    | s :: rest => if s = name then some ⟨rest, p.artifact⟩ else none

/-- Puts a name into an ascending list that does not hold it. -/
def insertName (name : String) : List String → List String
  | [] => [name]
  | n :: ns =>
    if name < n then name :: n :: ns else if name = n then n :: ns else n :: insertName name ns

/-- The names of the modules right below, ascending and each once. -/
def childNames (ps : List Placed) : List String :=
  (ps.filterMap (·.segments.head?)).foldl (fun names name => insertName name names) []

/-- The artifact that is placed at the module itself; the last one counts. -/
def own? (ps : List Placed) : Option Placed := (ps.filter (·.segments.isEmpty)).getLast?

/-- The source of the artifact that is placed at the module itself. -/
def ownLines (ps : List Placed) : List Line :=
  match own? ps with
  | some p => Source.linesOf p.artifact.source
  | none => []

/-- The exports of the artifacts that are placed right below. -/
def exportLines (ps : List Placed) : List Line :=
  ps.filterMap fun p =>
    match p.segments, p.artifact.reexport with
    | [leaf], some name => some (.outer ("pub use " ++ leaf ++ "::" ++ name ++ ";"))
    | _, _ => none

/-- The lines of a module whose artifacts are at most `height` segments away. Its own artifact, its
exports and the modules in it are held apart by blank lines; an artifact counts as well if its
source is empty. -/
def treeLines : (height : Nat) → List Placed → List Line
  | 0, ps => ownLines ps
  | height + 1, ps =>
    [Line.blank].intercalate
      ((own? ps).toList.map (fun p => Source.linesOf p.artifact.source) ++
        [exportLines ps].filter (!·.isEmpty) ++
        (childNames ps).map fun name =>
          Source.block ("pub mod " ++ name ++ " \x7b") (treeLines height (below name ps)) "\x7d")

/-- The length of the longest way to an artifact. -/
def height (ps : List Placed) : Nat := (ps.map (·.segments.length)).foldl max 0

end Placed

namespace Output

/-- The artifacts placed from the root of the messages; one without segments has no place. -/
def placed (o : Output) : List Placed :=
  (o.artifacts.filter (!·.segments.isEmpty)).map fun a => ⟨a.segments, a⟩

/-- Every artifact in one text. -/
def moduleTree (o : Output) : String :=
  Source.print
    ([.outer "// Protocol modules: generated by protogen, do not edit.", .blank] ++
      Placed.treeLines (Placed.height o.placed) o.placed)

end Output

end WireCodec
