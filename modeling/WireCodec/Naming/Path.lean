import WireCodec.Naming.Identifier
import WireCodec.Naming.Settings

/-!
# Paths

A dotted package becomes a list of module segments, and a message or a type is found under the
segments of its package: as a path of the generated code, segments joined by `::`, and as a file,
segments joined by `/`.
-/

namespace WireCodec

/-- The package without `root` in front; a package that does not start with it is left whole. -/
def withoutRoot (root package : String) : List Char :=
  (root.toList.isPrefixOf? package.toList).getD package.toList

/-- The module names of a package, below `root`. Empty parts of it are dropped. -/
def packageSegments (root package : String) : List String :=
  ((withoutRoot root package).splitOn '.').filterMap fun part =>
    if part.isEmpty then none else some (identifier (.ofList part))

/-- A path with one more segment. -/
def pathSnoc (path segment : String) : String :=
  if path = "" then segment else path ++ "::" ++ segment

/-- The path of the segments below `root`. -/
def joinPath (root : String) (segments : List String) : String := segments.foldl pathSnoc root

/-- A segment without the marks of a raw identifier in front. -/
def withoutRaw : List Char → List Char
  | 'r' :: '#' :: rest => withoutRaw rest
  | segment => segment

/-- The file of a module, below the directory of the generated code. -/
def filePath (segments : List String) : String :=
  "/".intercalate (segments.map fun s => .ofList (withoutRaw s.toList)) ++ ".rs"

namespace Settings

variable (settings : Settings)

/-- The segments of a message's own module, below the root of the messages. -/
def messageSegments (package name : String) : List String :=
  packageSegments settings.packageRoot package ++ [identifier name]

/-- The path of a message's own module. -/
def messageModule (package name : String) : String :=
  joinPath settings.messagesRoot (settings.messageSegments package name)

/-- The path of a message. -/
def messagePath (package name : String) : String :=
  settings.messageModule package name ++ "::" ++ name

/-- The path of a custom type, which stands in the module of its package. -/
def typePath (package name : String) : String :=
  joinPath settings.typesRoot (packageSegments settings.packageRoot package) ++ "::" ++ name

end Settings

end WireCodec
