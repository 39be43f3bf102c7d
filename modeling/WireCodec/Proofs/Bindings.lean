import WireCodec.Proofs.SourceLines

/-!
# Names that code binds

The names that nested modules bind are read off their text (`bindings`): a line at the indentation
of its module binds the struct it declares, the last name of the path it uses, or the module it
opens, and a brace further out closes the module. Lines that are put together group by group bind
what the groups declare (`declarations`).
-/

namespace WireCodec

/-! ## Reading declarations -/

/-- What a line of code declares. -/
inductive Declaration
  | module (name : String)
  | item (name : String)
  deriving DecidableEq, Repr

/-- The characters up to the first blank. -/
def word (cs : List Char) : String := .ofList (cs.takeWhile (· ≠ ' '))

/-- The characters of a path behind its last separator. -/
def lastSegment (cs : List Char) : String := .ofList (cs.reverse.takeWhile (· ≠ ':')).reverse

/-- What a line declares that opens a module, declares a struct or uses a path. -/
def declaration? (cs : List Char) : Option Declaration :=
  match "pub mod ".toList.isPrefixOf? cs with
  | some rest => some (.module (word rest))
  | none =>
    match "pub struct ".toList.isPrefixOf? cs with
    | some rest => some (.item (word rest))
    | none =>
      ("use ".toList.isPrefixOf? cs <|> "pub use ".toList.isPrefixOf? cs).map fun path =>
        .item (lastSegment path.dropLast)

/-- The names that lines bind, each with its module; `path` leads to the module that the first line
stands in, the innermost name first. -/
def bindingsFrom (path : List String) : List (List Char) → List (List String × String)
  | [] => []
  | line :: lines =>
    match (indent path.length).isPrefixOf? line with
    | some cs =>
      match declaration? cs with
      | some (.module name) => (path, name) :: bindingsFrom (name :: path) lines
      | some (.item name) => (path, name) :: bindingsFrom path lines
      | none => bindingsFrom path lines
    | none =>
      if line = indent (path.length - 1) ++ ['\x7d'] then bindingsFrom path.tail lines
      else bindingsFrom path lines

/-- The names that the modules of a text bind, each with its module. -/
def bindings (text : String) : List (List String × String) :=
  bindingsFrom [] ((Source.linesOf text).map Line.chars)

/-! ## Single lines -/

theorem isPrefixOf?_cons_self (c : Char) (ps cs : List Char) :
    (c :: ps).isPrefixOf? (c :: cs) = ps.isPrefixOf? cs :=
  if_pos (beq_self_eq_true c)

theorem isPrefixOf?_append (ps cs : List Char) : ps.isPrefixOf? (ps ++ cs) = some cs := by
  induction ps with
  | nil => rfl
  | cons p ps ih => exact (isPrefixOf?_cons_self p ps (ps ++ cs)).trans ih

theorem isPrefixOf?_append_append (ps qs cs : List Char) :
    (ps ++ qs).isPrefixOf? (ps ++ cs) = qs.isPrefixOf? cs := by
  induction ps with
  | nil => rfl
  | cons p ps ih => exact (isPrefixOf?_cons_self p (ps ++ qs) (ps ++ cs)).trans ih

theorem indent_succ (n : Nat) : indent (n + 1) = indent n ++ [' ', ' ', ' ', ' '] := indent_add n 1

theorem declaration?_space (cs : List Char) : declaration? (' ' :: cs) = none := rfl

section Lines

variable (path : List String) (lines : List (List Char))

theorem bindingsFrom_indent (cs : List Char) :
    bindingsFrom path ((indent path.length ++ cs) :: lines) =
      match declaration? cs with
      | some (.module name) => (path, name) :: bindingsFrom (name :: path) lines
      | some (.item name) => (path, name) :: bindingsFrom path lines
      | none => bindingsFrom path lines := by
  rw [bindingsFrom, isPrefixOf?_append]

theorem bindingsFrom_blank : bindingsFrom path ([] :: lines) = bindingsFrom path lines := by
  cases path with
  | nil => rfl
  | cons name path =>
    have short : (indent (path.length + 1)).isPrefixOf? [] = none := rfl
    rw [bindingsFrom, List.length_cons, short]
    simp

/-- A brace one level further out closes the module. -/
theorem bindingsFrom_close (name : String) :
    bindingsFrom (name :: path) ((indent path.length ++ ['\x7d']) :: lines) =
      bindingsFrom path lines := by
  have short : (indent (path.length + 1)).isPrefixOf? (indent path.length ++ ['\x7d']) = none := by
    rw [indent_succ, isPrefixOf?_append_append]
    rfl
  rw [bindingsFrom, List.length_cons, short]
  simp

end Lines

/-! ## Groups of lines -/

namespace Line

/-- What the line declares in the scope of the lines around it. -/
def declaration? (l : Line) : Option Declaration :=
  if l.depth = 0 then WireCodec.declaration? l.text.toList else none

/-- The name of the item that the line declares. -/
def item? (l : Line) : Option String :=
  match l.declaration? with
  | some (.item name) => some name
  | _ => none

/-- The line opens no module. -/
def Inner (l : Line) : Prop := ∀ name, l.declaration? ≠ some (.module name)

end Line

/-- In the module at `path` the lines bind `names`, and after them the module goes on. -/
def Binds (path : List String) (ls : List Line) (names : List (List String × String)) : Prop :=
  ∀ lines, bindingsFrom path (ls.map (fun l => Line.shift path.length l.chars) ++ lines) =
    names ++ bindingsFrom path lines

theorem binds_nil (path : List String) : Binds path [] [] := fun _ => rfl

theorem Binds.append {path : List String} {ls ls' : List Line}
    {names names' : List (List String × String)} (h : Binds path ls names)
    (h' : Binds path ls' names') : Binds path (ls ++ ls') (names ++ names') := by
  intro lines
  rw [List.map_append, List.append_assoc, h, h', List.append_assoc]

theorem declaration?_indent (l : Line) :
    declaration? (indent l.depth ++ l.text.toList) = l.declaration? := by
  unfold Line.declaration?
  cases l.depth with
  | zero => rfl
  | succ depth =>
    rw [if_neg (by omega), Nat.add_comm, indent_add]
    exact declaration?_space _

theorem declaration?_of_empty {l : Line} (h : l.text.toList = []) : l.declaration? = none := by
  unfold Line.declaration?
  rw [h]
  exact ite_self none

theorem binds_line {path : List String} {l : Line} (inner : l.Inner) :
    Binds path [l] (l.item?.toList.map (path, ·)) := by
  intro lines
  rw [List.map_singleton, List.singleton_append]
  by_cases empty : l.text.toList = []
  · rw [Line.chars, empty, Line.shift_nil, Line.shift_nil, bindingsFrom_blank, Line.item?,
      declaration?_of_empty empty]
    rfl
  rw [Line.chars, Line.shift_shift, Line.shift_of_ne_nil empty, indent_add, List.append_assoc,
    bindingsFrom_indent, declaration?_indent, Line.item?]
  cases declared : l.declaration? with
  | none => rfl
  | some d =>
    cases d with
    | item name => rfl
    | module name => exact absurd declared (inner name)

/-- Lines that open no module bind the items they declare. -/
theorem binds_inner {path : List String} {ls : List Line} (inner : ∀ l ∈ ls, l.Inner) :
    Binds path ls ((ls.filterMap Line.item?).map (path, ·)) := by
  induction ls with
  | nil => exact binds_nil path
  | cons l ls ih =>
    obtain ⟨first, others⟩ := List.forall_mem_cons.1 inner
    have all := (show Binds path [l] _ from binds_line first).append (ih others)
    cases item : l.item? with
    | none => simpa [item] using all
    | some name => simpa [item] using all

theorem binds_blank (path : List String) : Binds path [Line.blank] [] := by
  intro lines
  exact bindingsFrom_blank path lines

/-- Printed code binds what its lines bind. -/
theorem bindings_print {ls : List Line} {names : List (List String × String)}
    (neat : Source.Neat ls) (h : Binds [] ls names) : bindings (Source.print ls) = names := by
  have whole := h []
  rw [List.append_nil, bindingsFrom, List.append_nil] at whole
  rw [bindings, Source.linesOf_print neat, List.map_map, ← whole]
  refine congrArg _ (List.map_congr_left fun l _ => ?_)
  rw [Function.comp_apply, Line.chars_flat, List.length_nil, Line.shift_zero]

theorem word_append {name : String} (plain : ' ' ∉ name.toList) (rest : List Char) :
    word (name.toList ++ ' ' :: rest) = name := by
  rw [word, List.takeWhile_append_of_pos, List.takeWhile_cons_of_neg (by simp)]
  · simp
  · intro c hc
    simp only [ne_eq, decide_not, Bool.not_eq_eq_eq_not, Bool.not_true, decide_eq_false_iff_not]
    rintro rfl
    exact plain hc

theorem declaration?_module {name : String} (plain : ' ' ∉ name.toList) :
    declaration? ("pub mod " ++ name ++ " \x7b").toList = some (.module name) := by
  rw [String.toList_append, String.toList_append, List.append_assoc, declaration?,
    isPrefixOf?_append]
  exact congrArg (fun name => some (Declaration.module name)) (word_append plain ['\x7b'])

/-- A block that opens a module binds its name and what the module binds. -/
theorem binds_module {path : List String} {name : String} {body : List Line}
    {names : List (List String × String)} (plain : ' ' ∉ name.toList)
    (h : Binds (name :: path) body names) :
    Binds path (Source.block ("pub mod " ++ name ++ " \x7b") body "\x7d")
      ((path, name) :: names) := by
  intro lines
  have opening : ("pub mod " ++ name ++ " \x7b").toList ≠ [] := by simp
  have inside : (body.map Line.deeper).map (fun l => Line.shift path.length l.chars) =
      body.map fun l => Line.shift (name :: path).length l.chars := by
    rw [List.map_map]
    refine List.map_congr_left fun l _ => ?_
    rw [Function.comp_apply, Line.chars_deeper, Line.shift_shift, List.length_cons]
  have closing : Line.shift path.length (Line.outer "\x7d").chars =
      indent path.length ++ ['\x7d'] := by
    rw [Line.chars_outer]
    exact Line.shift_of_ne_nil (by simp)
  rw [Source.block, List.map_append, List.map_cons, inside, List.map_singleton, closing,
    Line.chars_outer, Line.shift_of_ne_nil opening, List.cons_append, List.cons_append,
    List.append_assoc, bindingsFrom_indent, declaration?_module plain]
  simp only
  rw [List.cons_append, h, List.cons_append, List.nil_append, bindingsFrom_close]

/-! ## Groups with blank lines between -/

theorem Binds.eq_nil {path : List String} {names : List (List String × String)}
    (h : Binds path [] names) : names = [] := by
  simpa [bindingsFrom] using (h []).symm

theorem Binds.spaced_cons {path : List String} {g : List Line} {gs : List (List Line)}
    {names names' : List (List String × String)} (h : Binds path g names)
    (h' : Binds path (Source.spaced gs) names') :
    Binds path (Source.spaced (g :: gs)) (names ++ names') := by
  rw [Source.spaced_cons]
  split
  · rename_i empty
    subst empty
    rwa [h.eq_nil, List.nil_append]
  split
  · rename_i rest
    rw [rest] at h'
    rwa [h'.eq_nil, List.append_nil]
  · exact h.append ((binds_blank path).append h')

/-! ## What groups declare -/

/-- What lines declare in the scope around them. -/
def declarations (ls : List Line) : List Declaration := ls.filterMap Line.declaration?

theorem declarations_append (ls ls' : List Line) :
    declarations (ls ++ ls') = declarations ls ++ declarations ls' :=
  List.filterMap_append

theorem declarations_spaced (gs : List (List Line)) :
    declarations (Source.spaced gs) = gs.flatMap declarations :=
  Source.filterMap_joined rfl gs

theorem declaration?_deeper (l : Line) : l.deeper.declaration? = none := if_neg (Nat.succ_ne_zero _)

/-- Of a block only the first and the last line can declare something around it. -/
theorem declarations_block (opening : String) (body : List Line) (closing : String) :
    declarations (Source.block opening body closing) =
      declarations [.outer opening, .outer closing] := by
  have inside : declarations (body.map Line.deeper) = [] := by
    rw [declarations, List.filterMap_map, List.filterMap_eq_nil_iff]
    exact fun l _ => declaration?_deeper l
  have parts : Source.block opening body closing =
      [.outer opening] ++ (body.map Line.deeper ++ [.outer closing]) := rfl
  rw [parts, declarations_append, declarations_append, inside, List.nil_append,
    ← declarations_append]
  rfl

theorem declaration?_flat (l : Line) : l.flat.declaration? = l.declaration? := by
  by_cases empty : l.text.toList = []
  · rw [declaration?_of_empty empty, declaration?_of_empty]
    simp [Line.flat, Line.outer, Line.chars, empty]
  · rw [← declaration?_indent l, ← Line.shift_of_ne_nil empty]
    show declaration? (String.ofList l.chars).toList = _
    rw [String.toList_ofList]
    rfl

theorem declarations_flat (ls : List Line) :
    declarations (ls.map Line.flat) = declarations ls := by
  rw [declarations, List.filterMap_map]
  exact congrArg (ls.filterMap ·) (funext declaration?_flat)

/-- Lines that declare nothing but items open no module and bind those items. -/
theorem items_of_declarations {ls : List Line} {names : List String}
    (h : declarations ls = names.map .item) :
    ls.filterMap Line.item? = names ∧ ∀ l ∈ ls, l.Inner := by
  have single (l : Line) : l.item? = l.declaration?.bind fun
      | .item name => some name
      | .module _ => none := by
    unfold Line.item?
    cases l.declaration? with
    | none => rfl
    | some d => cases d <;> rfl
  constructor
  · rw [funext single, ← List.filterMap_filterMap]
    show (declarations ls).filterMap _ = names
    rw [h, List.filterMap_map]
    exact List.filterMap_some
  · intro l hl name opened
    have mem : .module name ∈ declarations ls := List.mem_filterMap.2 ⟨l, hl, opened⟩
    rw [h] at mem
    simp at mem

theorem binds_of_declarations {path : List String} {ls : List Line} {names : List String}
    (h : declarations ls = names.map .item) : Binds path ls (names.map (path, ·)) := by
  obtain ⟨items, inner⟩ := items_of_declarations h
  rw [← items]
  exact binds_inner inner

/-! ## Paths -/

theorem lastSegment_append {name : String} (plain : ':' ∉ name.toList) (path : List Char) :
    lastSegment (path ++ [':', ':'] ++ name.toList) = name := by
  rw [lastSegment, List.reverse_append, List.reverse_append, List.reverse_cons, List.reverse_cons]
  rw [List.takeWhile_append_of_pos]
  · simp
  · intro c hc
    rw [List.mem_reverse] at hc
    simp only [ne_eq, decide_not, Bool.not_eq_eq_eq_not, Bool.not_true, decide_eq_false_iff_not]
    rintro rfl
    exact plain hc

theorem declaration?_use (path : String) :
    declaration? ("use " ++ path ++ ";").toList = some (.item (lastSegment path.toList)) := by
  rw [String.toList_append, String.toList_append, List.append_assoc]
  show some (Declaration.item (lastSegment (path.toList ++ [';']).dropLast)) = _
  rw [List.dropLast_concat]

theorem declaration?_pubUse (path : String) :
    declaration? ("pub use " ++ path ++ ";").toList = some (.item (lastSegment path.toList)) := by
  rw [String.toList_append, String.toList_append, List.append_assoc]
  show some (Declaration.item (lastSegment (path.toList ++ [';']).dropLast)) = _
  rw [List.dropLast_concat]

theorem declaration?_exportLine (leaf name : String) :
    (Line.outer ("pub use " ++ leaf ++ "::" ++ name ++ ";")).declaration? =
      some (.item (lastSegment (leaf ++ "::" ++ name).toList)) := by
  rw [← declaration?_pubUse]
  simp only [String.append_assoc]
  rfl

end WireCodec
