import WireCodec.Proofs.ModuleText

/-!
# Paths that code spells

Three kinds of lines spell the path of an item: an import, an export, and a row of the dispatch
table, which holds an id besides. They are told by what a line shows, and a list of lines spells the
paths of all its lines (`Source.pathsBehind`, `Source.tableRows`). The module of a message
(`Source.pathsBehind_moduleLines`), the index (`Source.pathsBehind_indexLines`) and the module of
the dispatch table (`Source.tableRows_registryLines`) spell what one of their sections does. Where
every text stays on its line, the same paths are read off the printed code
(`Source.filterMap_linesOf_print`).
-/

namespace WireCodec.Source

/-! ## Reading paths -/

/-- What stands between the opening and the closing of a line. -/
def between? (opening closing : String) (cs : List Char) : Option (List Char) :=
  (opening.toList.isPrefixOf? cs).bind (closing.toList.isSuffixOf? ·)

/-- The path of a line with the given opening, up to the semicolon. -/
def pathBehind? (opening : String) (cs : List Char) : Option String :=
  (between? opening ";" cs).map .ofList

/-- The id and the path of a row of the dispatch table. -/
def tableRow? (crate : String) (cs : List Char) : Option (String × String) :=
  (between? "    (" ">)," cs).bind fun row =>
    ((", " ++ crate ++ "::factory::<").toList.isPrefixOf? (row.dropWhile Char.isDigit)).map
      fun path => (.ofList (row.takeWhile Char.isDigit), .ofList path)

/-- The paths of the lines with the given opening: `use ` for imports, `pub use ` for exports. -/
def pathsBehind (opening : String) (ls : List Line) : List String :=
  ls.filterMap (pathBehind? opening ·.chars)

/-- The rows of the dispatch table. -/
def tableRows (crate : String) (ls : List Line) : List (String × String) :=
  ls.filterMap (tableRow? crate ·.chars)

theorem between?_append (opening closing : String) (cs : List Char) :
    between? opening closing (opening.toList ++ (cs ++ closing.toList)) = some cs := by
  rw [between?, isPrefixOf?_append, Option.bind_some, List.isSuffixOf?, List.reverse_append,
    isPrefixOf?_append, Option.map_some, List.reverse_reverse]

/-- What is told by what lines show is read off the printed code as well. -/
theorem filterMap_linesOf_print {α : Type} {f : List Char → Option α} {ls : List Line}
    (neat : Neat ls) : (linesOf (print ls)).filterMap (f ·.chars) = ls.filterMap (f ·.chars) := by
  rw [linesOf_print neat, List.filterMap_map]
  exact congrArg (ls.filterMap ·) (funext fun l => congrArg f (Line.chars_flat l))

/-! ## Imports and exports -/

theorem pathBehind?_append (opening path : String) :
    pathBehind? opening (opening ++ path ++ ";").toList = some path := by
  have pieces : (opening ++ path ++ ";").toList =
      opening.toList ++ (path.toList ++ ";".toList) := by
    simp
  rw [pathBehind?, pieces, between?_append, Option.map_some, String.ofList_toList]

/-- The lines of paths spell these paths. -/
theorem pathsBehind_map (opening : String) (paths : List String) :
    pathsBehind opening (paths.map fun path => .outer (opening ++ path ++ ";")) = paths := by
  have each :
      (fun path => pathBehind? opening (Line.outer (opening ++ path ++ ";")).chars) = some := by
    funext path
    rw [Line.chars_outer, pathBehind?_append]
  rw [pathsBehind, List.filterMap_map]
  exact (congrArg (paths.filterMap ·) each).trans List.filterMap_some

/-- A line that declares nothing imports nothing. -/
theorem pathBehind?_of_declaration? {l : Line} (silent : l.declaration? = none) :
    pathBehind? "use " l.chars = none := by
  unfold pathBehind? between? Line.chars
  by_cases empty : l.text.toList = []
  · rw [empty, Line.shift_nil]
    rfl
  rw [Line.shift_of_ne_nil empty]
  unfold Line.declaration? at silent
  cases depth : l.depth with
  | succ depth => rfl
  | zero =>
    rw [if_pos depth, declaration?] at silent
    split at silent
    · cases silent
    split at silent
    · cases silent
    have flush (cs : List Char) : indent 0 ++ cs = cs := rfl
    rw [flush]
    cases imports : "use ".toList.isPrefixOf? l.text.toList with
    | none => rfl
    | some path =>
      rw [imports] at silent
      cases silent

theorem pathsBehind_of_declarations {ls : List Line} (silent : declarations ls = []) :
    pathsBehind "use " ls = [] :=
  List.filterMap_eq_nil_iff.2 fun l hl =>
    pathBehind?_of_declaration? (List.filterMap_eq_nil_iff.1 silent l hl)

theorem pathsBehind_spaced {opening : String}
    (blank : pathBehind? opening Line.blank.chars = none) (gs : List (List Line)) :
    pathsBehind opening (spaced gs) = gs.flatMap (pathsBehind opening) :=
  filterMap_joined (f := fun l : Line => pathBehind? opening l.chars) blank gs

theorem pathsBehind_importLines (settings : Settings) (l : Layout) :
    pathsBehind "use " (importLines settings l) =
      (runtimeNames l).map (settings.runtimeCrate ++ "::" ++ ·) ++
        l.imports.filterMap (importPath settings l) := by
  have lines (paths : List String) : pathsBehind "use " (paths.map useLine) = paths :=
    pathsBehind_map "use " paths
  have runtime :
      (runtimeNames l).map (fun name => useLine (settings.runtimeCrate ++ "::" ++ name)) =
        ((runtimeNames l).map (settings.runtimeCrate ++ "::" ++ ·)).map useLine := by
    rw [List.map_map]
    rfl
  rw [importLines, pathsBehind_spaced rfl, List.flatMap_cons, List.flatMap_singleton, runtime,
    lines, lines]

/-- A struct imports nothing. -/
theorem pathsBehind_structLines (m : MessageDecl) (l : Layout) :
    pathsBehind "use " (structLines m l) = [] := by
  have title : pathsBehind "use " [.outer (titleText m), .outer "#[derive(Debug)]"] = [] :=
    pathsBehind_of_declarations (declarations_title m)
  have opening (rest : String) :
      pathBehind? "use " (Line.outer ("pub struct " ++ m.name ++ rest)).chars = none := by
    rw [Line.chars_outer, String.append_assoc, String.toList_append]
    rfl
  have struct (rest : String) {ls : List Line} (silent : declarations ls = []) :
      pathsBehind "use " (.outer ("pub struct " ++ m.name ++ rest) :: ls) = [] := by
    have first := List.filterMap_cons_none (f := fun l : Line => pathBehind? "use " l.chars)
      (l := ls) (opening rest)
    exact first.trans (pathsBehind_of_declarations silent)
  have inside (body : List Line) : declarations (body.map Line.deeper ++ [.outer "\x7d"]) = [] :=
    declarations_block "" body "\x7d"
  rw [structLines, pathsBehind, List.filterMap_append]
  refine List.append_eq_nil_iff.2 ⟨title, ?_⟩
  split
  · exact struct " \x7b\x7d" rfl
  · exact struct " \x7b" (inside _)

/-- The module of a message imports what its imports say, and nothing else. -/
theorem pathsBehind_moduleLines (settings : Settings) (m : MessageDecl) (l : Layout) (p : Program) :
    pathsBehind "use " (moduleLines settings m l p) =
      (runtimeNames l).map (settings.runtimeCrate ++ "::" ++ ·) ++
        l.imports.filterMap (importPath settings l) := by
  have blank : pathBehind? "use " Line.blank.chars = none := rfl
  have header := pathsBehind_of_declarations (declarations_cons (silent_header m) [])
  simp only [moduleLines, pathsBehind_spaced blank, List.flatMap_cons, List.flatMap_nil,
    List.append_nil, List.nil_append, header, pathsBehind_importLines, pathsBehind_structLines,
    pathsBehind_of_declarations (declarations_defaultLines m l),
    pathsBehind_of_declarations (declarations_idLines m p),
    pathsBehind_of_declarations (declarations_codecLines m p),
    pathsBehind_of_declarations (declarations_messageLines m)]

/-- The index exports the path of each entry. -/
theorem pathsBehind_indexLines (plan : DispatchPlan) :
    pathsBehind "pub use " (indexLines plan) = plan.entries.map (·.path) := by
  have header : pathsBehind "pub use "
      [.outer "// Message index: generated by protogen, do not edit."] = [] :=
    rfl
  have exports := pathsBehind_map "pub use " (plan.entries.map (·.path))
  rw [List.map_map] at exports
  rw [indexLines, pathsBehind_spaced rfl, List.flatMap_cons, List.flatMap_singleton, header,
    List.nil_append]
  exact exports

/-! ## Rows -/

theorem tableRow?_row (crate path : String) (id : UInt16) :
    tableRow? crate (Line.outer ("(" ++ toString id ++ ", " ++ crate ++ "::factory::<" ++ path ++
      ">),")).deeper.chars = some (toString id, path) := by
  have pieces : (Line.outer ("(" ++ toString id ++ ", " ++ crate ++ "::factory::<" ++ path ++
      ">),")).deeper.chars = "    (".toList ++ ((toString id).toList ++
        ((", " ++ crate ++ "::factory::<").toList ++ path.toList) ++ ">),".toList) := by
    rw [Line.chars_deeper, Line.chars_outer, Line.shift_of_ne_nil (by simp)]
    simp [indent]
  have digits : ∀ c ∈ (toString id).toList, c.isDigit := fun c hc =>
    isDigit_of_mem_toString (n := id.toNat) hc
  have stop :
      ((", " ++ crate ++ "::factory::<").toList ++ path.toList).takeWhile Char.isDigit = [] ∧
        ((", " ++ crate ++ "::factory::<").toList ++ path.toList).dropWhile Char.isDigit =
          (", " ++ crate ++ "::factory::<").toList ++ path.toList := by
    rw [String.append_assoc, String.toList_append]
    exact ⟨rfl, rfl⟩
  rw [pieces, tableRow?, between?_append, Option.bind_some, List.dropWhile_append_of_pos digits,
    List.takeWhile_append_of_pos digits, stop.1, stop.2, isPrefixOf?_append, Option.map_some,
    List.append_nil, String.ofList_toList, String.ofList_toList]

theorem tableRows_cons (crate : String) (l : Line) (ls : List Line) :
    tableRows crate (l :: ls) = (tableRow? crate l.chars).toList ++ tableRows crate ls := by
  unfold tableRows
  cases row : tableRow? crate l.chars with
  | none => rw [List.filterMap_cons_none (f := fun l : Line => tableRow? crate l.chars) row]; rfl
  | some _ => rw [List.filterMap_cons_some (f := fun l : Line => tableRow? crate l.chars) row]; rfl

theorem tableRows_append (crate : String) (ls ls' : List Line) :
    tableRows crate (ls ++ ls') = tableRows crate ls ++ tableRows crate ls' :=
  List.filterMap_append

/-- A row is indented, so a line that starts with another character is none. -/
theorem tableRows_cons_outer (crate : String) {text : String}
    (other : text.toList.head? ≠ some ' ') (ls : List Line) :
    tableRows crate (.outer text :: ls) = tableRows crate ls := by
  have opening : "    (".toList.isPrefixOf? text.toList = none := by
    cases chars : text.toList with
    | nil => rfl
    | cons c cs =>
      have differ : (' ' == c) = false := by
        rw [chars, List.head?_cons] at other
        exact beq_eq_false_iff_ne.2 fun same => other (congrArg some same.symm)
      show (if ' ' == c then _ else none) = none
      rw [differ]
      rfl
  rw [tableRows_cons, Line.chars_outer, tableRow?, between?, opening]
  rfl

/-- The constant of the dispatch table has a row for each entry. -/
theorem tableRows_tableLines (settings : Settings) (entries : List DispatchEntry) :
    tableRows settings.runtimeCrate (tableLines settings entries) =
      entries.map fun e => (toString e.protocolId, e.path) := by
  have rows (es : List DispatchEntry) : tableRows settings.runtimeCrate ((es.map fun e =>
      .outer ("(" ++ toString e.protocolId ++ ", " ++ settings.runtimeCrate ++ "::factory::<" ++
        e.path ++ ">),")).map Line.deeper) =
      es.map fun e => (toString e.protocolId, e.path) := by
    induction es with
    | nil => rfl
    | cons e es ih =>
      rw [List.map_cons, List.map_cons, tableRows_cons, tableRow?_row, ih]
      rfl
  unfold tableLines
  split
  · rename_i empty
    rw [tableRows_cons_outer _ (by decide), List.isEmpty_iff.1 empty]
    rfl
  · rw [block, tableRows_append, tableRows_cons_outer _ (by decide), rows,
      tableRows_cons_outer _ (by decide)]
    exact List.append_nil _

/-- No other line of the module is a row. -/
theorem tableRows_registryLines (settings : Settings) (plan : DispatchPlan) :
    tableRows settings.runtimeCrate (registryLines settings plan) =
      plan.entries.map fun e => (toString e.protocolId, e.path) := by
  have groups (gs : List (List Line)) : tableRows settings.runtimeCrate (spaced gs) =
      gs.flatMap (tableRows settings.runtimeCrate) :=
    filterMap_joined (f := fun l : Line => tableRow? settings.runtimeCrate l.chars) rfl gs
  have uses (names : List String) : tableRows settings.runtimeCrate (names.map fun name =>
      .outer ("use " ++ settings.runtimeCrate ++ "::" ++ name ++ ";")) = [] := by
    induction names with
    | nil => rfl
    | cons name names ih => rw [List.map_cons, tableRows_cons_outer _ (by simp), ih]
  have function : tableRows settings.runtimeCrate
      (block "pub fn message_registry() -> Result<MessageRegistry> \x7b"
        [.outer "MessageRegistry::from_entries(MESSAGES)"] "\x7d") = [] := by
    have body : tableRow? settings.runtimeCrate
        (Line.outer "MessageRegistry::from_entries(MESSAGES)").deeper.chars = none := rfl
    rw [block, tableRows_append, tableRows_cons_outer _ (by decide), List.map_singleton,
      tableRows_cons, body, tableRows_cons_outer _ (by decide)]
    rfl
  rw [registryLines, groups]
  simp only [List.flatMap_cons, List.flatMap_nil, uses]
  rw [tableRows_cons_outer _ (by decide), tableRows_cons_outer _ (by decide),
    tableRows_cons_outer _ (by decide), tableRows_tableLines, function]
  exact List.append_nil _

end WireCodec.Source
