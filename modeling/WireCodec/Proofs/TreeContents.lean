import WireCodec.Proofs.NameClashes

/-!
# Contents of the tree of modules

The tree of modules is read as text (`entries?`): a line opens a module, belongs to the module that
is open, or closes it, and its indentation has to fit. Read this way, the tree opens the module of
each artifact and the modules that lead there, each once and no other; each module holds the source
of its own artifact if it has one, then the exports of the messages right below it, and nothing else
but blank lines (`Output.entries_moduleTree`).
-/

namespace WireCodec

/-! ## Reading nested modules -/

/-- What a line of nested modules does: it opens the module at a path, or it shows something in the
module at a path. -/
inductive Entry
  | opens (path : List String)
  | holds (path : List String) (shown : List Char)
  deriving DecidableEq

namespace Entry

def opened? : Entry → Option (List String)
  | opens path => some path
  | holds _ _ => none

def heldAt? (path : List String) : Entry → Option (List Char)
  | opens _ => none
  | holds path' shown => if path' = path then some shown else none

end Entry

/-- The paths of the modules that are opened. -/
def opened (es : List Entry) : List (List String) := es.filterMap Entry.opened?

/-- What the module at a path holds besides the modules in it. -/
def held (path : List String) (es : List Entry) : List (List Char) :=
  es.filterMap (Entry.heldAt? path)

/-- The name of the module that a line opens. -/
def moduleName? (cs : List Char) : Option String :=
  match "pub mod ".toList.isPrefixOf? cs with
  | some rest => if rest = (word rest).toList ++ " \x7b".toList then some (word rest) else none
  | none => none

/-- The entries of lines in the module at `path`. Each line has to be blank, or indented as far as
the module asks for, or a brace one level further out, which closes the module; in the end all
modules have to be closed. -/
def entriesFrom (path : List String) : List (List Char) → Option (List Entry)
  | [] => if path = [] then some [] else none
  | line :: lines =>
    if line = [] then (entriesFrom path lines).map (.holds path [] :: ·)
    else
      match (indent path.length).isPrefixOf? line with
      | some [] => none
      | some cs =>
        match moduleName? cs with
        | some name =>
          (entriesFrom (path ++ [name]) lines).map (.opens (path ++ [name]) :: ·)
        | none => (entriesFrom path lines).map (.holds path cs :: ·)
      | none =>
        if path ≠ [] ∧ line = indent (path.length - 1) ++ ['\x7d'] then
          entriesFrom path.dropLast lines
        else none

/-- The entries of a text. -/
def entries? (text : String) : Option (List Entry) :=
  entriesFrom [] ((Source.linesOf text).map Line.chars)

section Lines

variable (path : List String) (lines : List (List Char))

theorem entriesFrom_blank :
    entriesFrom path ([] :: lines) = (entriesFrom path lines).map (.holds path [] :: ·) := by
  rw [entriesFrom, if_pos rfl]

theorem entriesFrom_indent {cs : List Char} (filled : cs ≠ []) :
    entriesFrom path ((indent path.length ++ cs) :: lines) =
      match moduleName? cs with
      | some name => (entriesFrom (path ++ [name]) lines).map (.opens (path ++ [name]) :: ·)
      | none => (entriesFrom path lines).map (.holds path cs :: ·) := by
  rw [entriesFrom, if_neg (by simp [filled]), isPrefixOf?_append]
  cases cs with
  | nil => exact absurd rfl filled
  | cons c cs => rfl

/-- A brace one level further out closes the module. -/
theorem entriesFrom_close (name : String) :
    entriesFrom (path ++ [name]) ((indent path.length ++ ['\x7d']) :: lines) =
      entriesFrom path lines := by
  have short : (indent (path.length + 1)).isPrefixOf? (indent path.length ++ ['\x7d']) = none := by
    rw [indent_succ, isPrefixOf?_append_append]
    rfl
  have length : (path ++ [name]).length = path.length + 1 := by simp
  rw [entriesFrom, if_neg (by simp), length, short, List.dropLast_concat]
  simp

end Lines

theorem moduleName?_eq_none {cs : List Char} (h : ∀ name, declaration? cs ≠ some (.module name)) :
    moduleName? cs = none := by
  unfold moduleName?
  cases opening : "pub mod ".toList.isPrefixOf? cs with
  | none => rfl
  | some rest =>
    refine absurd ?_ (h (word rest))
    rw [declaration?, opening]

theorem moduleName?_opening {name : String} (plain : ' ' ∉ name.toList) :
    moduleName? ("pub mod " ++ name ++ " \x7b").toList = some name := by
  have own : word (name.toList ++ " \x7b".toList) = name := word_append plain ['\x7b']
  rw [String.toList_append, String.toList_append, List.append_assoc, moduleName?,
    isPrefixOf?_append]
  simp only [own, if_true]

/-! ## Groups of lines -/

/-- In the module at `path` the lines have these entries, and after them the module goes on. -/
structure HasEntries (path : List String) (ls : List Line) (es : List Entry) : Prop where
  empty : ls = [] ↔ es = []
  entries : ∀ lines,
    entriesFrom path (ls.map (fun l => Line.shift path.length l.chars) ++ lines) =
      (entriesFrom path lines).map (es ++ ·)

theorem hasEntries_nil (path : List String) : HasEntries path [] [] :=
  ⟨by simp, fun lines => by simp⟩

theorem HasEntries.append {path : List String} {ls ls' : List Line} {es es' : List Entry}
    (h : HasEntries path ls es) (h' : HasEntries path ls' es') :
    HasEntries path (ls ++ ls') (es ++ es') where
  empty := by rw [List.append_eq_nil_iff, List.append_eq_nil_iff, h.empty, h'.empty]
  entries lines := by
    rw [List.map_append, List.append_assoc, h.entries, h'.entries, Option.map_map]
    simp [Function.comp_def]

/-- The entries of lines that open no module. -/
def lineEntries (path : List String) (ls : List Line) : List Entry :=
  ls.map fun l => .holds path l.chars

theorem hasEntries_line {path : List String} {l : Line} (inner : l.Inner) :
    HasEntries path [l] (lineEntries path [l]) := by
  refine ⟨by simp [lineEntries], fun lines => ?_⟩
  rw [List.map_singleton, List.singleton_append]
  by_cases empty : l.text.toList = []
  · have blank : l.chars = [] := by rw [Line.chars, empty, Line.shift_nil]
    rw [blank, Line.shift_nil, entriesFrom_blank]
    simp [lineEntries, blank]
  · have chars : l.chars = indent l.depth ++ l.text.toList := Line.shift_of_ne_nil empty
    have filled : l.chars ≠ [] := by simp [chars, empty]
    have inside : moduleName? l.chars = none := by
      refine moduleName?_eq_none fun name opened => inner name ?_
      rwa [chars, declaration?_indent] at opened
    rw [Line.shift_of_ne_nil filled, entriesFrom_indent _ _ filled, inside]
    rfl

theorem hasEntries_lines {path : List String} {ls : List Line} (inner : ∀ l ∈ ls, l.Inner) :
    HasEntries path ls (lineEntries path ls) := by
  induction ls with
  | nil => exact hasEntries_nil path
  | cons l ls ih =>
    obtain ⟨first, others⟩ := List.forall_mem_cons.1 inner
    exact (hasEntries_line first).append (ih others)

theorem hasEntries_blank (path : List String) : HasEntries path [Line.blank] [.holds path []] :=
  ⟨by simp, entriesFrom_blank path⟩

/-- A block that opens a module has the entries of its body. -/
theorem hasEntries_module {path : List String} {name : String} {body : List Line} {es : List Entry}
    (plain : ' ' ∉ name.toList) (h : HasEntries (path ++ [name]) body es) :
    HasEntries path (Source.block ("pub mod " ++ name ++ " \x7b") body "\x7d")
      (.opens (path ++ [name]) :: es) := by
  refine ⟨by simp [Source.block], fun lines => ?_⟩
  have opening : ("pub mod " ++ name ++ " \x7b").toList ≠ [] := by simp
  have inside : (body.map Line.deeper).map (fun l => Line.shift path.length l.chars) =
      body.map fun l => Line.shift (path ++ [name]).length l.chars := by
    rw [List.map_map]
    refine List.map_congr_left fun l _ => ?_
    rw [Function.comp_apply, Line.chars_deeper, Line.shift_shift, List.length_append]
    rfl
  have closing : Line.shift path.length (Line.outer "\x7d").chars =
      indent path.length ++ ['\x7d'] := by
    rw [Line.chars_outer]
    exact Line.shift_of_ne_nil (by simp)
  rw [Source.block, List.map_append, List.map_cons, inside, List.map_singleton, closing,
    Line.chars_outer, Line.shift_of_ne_nil opening, List.cons_append, List.cons_append,
    List.append_assoc, entriesFrom_indent _ _ opening, moduleName?_opening plain]
  simp only
  rw [h.entries, List.cons_append, List.nil_append, entriesFrom_close, Option.map_map]
  rfl

/-- Printed code has the entries of its lines. -/
theorem entries?_print {ls : List Line} {es : List Entry} (neat : Source.Neat ls)
    (h : HasEntries [] ls es) : entries? (Source.print ls) = some es := by
  have whole := h.entries []
  have none : entriesFrom [] [] = some [] := rfl
  rw [List.append_nil, none, Option.map_some, List.append_nil] at whole
  rw [entries?, Source.linesOf_print neat, List.map_map, ← whole]
  refine congrArg _ (List.map_congr_left fun l _ => ?_)
  rw [Function.comp_apply, Line.chars_flat, List.length_nil, Line.shift_zero]

/-! ## Groups with blank lines between -/

theorem HasEntries.spaced_cons {path : List String} {g : List Line} {gs : List (List Line)}
    {es : List Entry} {ess : List (List Entry)} (h : HasEntries path g es)
    (h' : HasEntries path (Source.spaced gs) (Source.joined (.holds path []) ess)) :
    HasEntries path (Source.spaced (g :: gs)) (Source.joined (.holds path []) (es :: ess)) := by
  rw [Source.spaced_cons, Source.joined_cons]
  simp only [← h.empty, ← h'.empty]
  split_ifs
  · exact h'
  · exact h
  · exact h.append ((hasEntries_blank path).append h')

namespace Placed

/-- The entries of a tree in the module at `path`. -/
def treeEntries (path : List String) : (height : Nat) → List Placed → List Entry
  | 0, ps => lineEntries path (ownLines ps)
  | height + 1, ps =>
    Source.joined (.holds path [])
      ([lineEntries path (ownLines ps), lineEntries path (exportLines ps)] ++
        (childNames ps).map fun name =>
          .opens (path ++ [name]) :: treeEntries (path ++ [name]) height (below name ps))

section Clean

variable {P : String → Prop} {ps : List Placed} (clean : ∀ p ∈ ps, p.Clean P)

include clean

theorem inner_ownLines : ∀ l ∈ ownLines ps, l.Inner := by
  intro l hl
  obtain ⟨p, hp, line⟩ := exists_of_mem_ownLines hl
  exact (clean p hp).inner l line

omit clean in
theorem inner_exportLines : ∀ l ∈ exportLines ps, l.Inner := by
  intro l hl name opened
  obtain ⟨p, -, exported⟩ := List.mem_filterMap.1 hl
  split at exported
  · cases exported
    rw [declaration?_exportLine] at opened
    exact nomatch opened
  · exact nomatch exported

/-- The lines of a tree have the entries of the tree. -/
theorem hasEntries_treeLines {path : List String} {height : Nat} :
    HasEntries path (treeLines height ps) (treeEntries path height ps) := by
  induction height generalizing path ps with
  | zero => exact hasEntries_lines (inner_ownLines clean)
  | succ height ih =>
    have modules : ∀ names : List String, (∀ name ∈ names, name ∈ childNames ps) →
        HasEntries path
          (Source.spaced (names.map fun name =>
            Source.block ("pub mod " ++ name ++ " \x7b") (treeLines height (below name ps)) "\x7d"))
          (Source.joined (.holds path []) (names.map fun name =>
            .opens (path ++ [name]) :: treeEntries (path ++ [name]) height (below name ps))) := by
      intro names children
      induction names with
      | nil => exact hasEntries_nil path
      | cons name names ih' =>
        obtain ⟨child, children⟩ := List.forall_mem_cons.1 children
        have plain := (isSegment_of_mem_childNames clean child).not_mem (c := ' ') (by decide)
        exact (hasEntries_module plain (ih (clean_below clean name))).spaced_cons (ih' children)
    rw [treeLines_succ fun p hp => (clean p hp).filled]
    exact (hasEntries_lines (inner_ownLines clean)).spaced_cons <|
      (hasEntries_lines inner_exportLines).spaced_cons (modules _ fun _ => id)

end Clean

/-! ## Opened modules -/

theorem opened_lineEntries (path : List String) (ls : List Line) :
    opened (lineEntries path ls) = [] :=
  List.filterMap_eq_nil_iff.2 (List.forall_mem_map.2 fun _ _ => rfl)

theorem opened_treeEntries_succ (path : List String) (height : Nat) (ps : List Placed) :
    opened (treeEntries path (height + 1) ps) = (childNames ps).flatMap fun name =>
      (path ++ [name]) :: opened (treeEntries (path ++ [name]) height (below name ps)) := by
  have here (ls : List Line) : (lineEntries path ls).filterMap Entry.opened? = [] :=
    opened_lineEntries path ls
  rw [treeEntries, opened, Source.filterMap_joined rfl, List.flatMap_append, List.flatMap_cons,
    List.flatMap_singleton, here, here, List.flatMap_map]
  rfl

/-- A tree opens the modules that lead to its artifacts. -/
theorem mem_opened_treeEntries {height : Nat} {ps : List Placed}
    (high : ∀ p ∈ ps, p.segments.length ≤ height) {path path' : List String} :
    path' ∈ opened (treeEntries path height ps) ↔
      ∃ names, names ≠ [] ∧ path' = path ++ names ∧ ∃ p ∈ ps, names <+: p.segments := by
  induction height generalizing path ps with
  | zero =>
    rw [treeEntries, opened_lineEntries]
    refine iff_of_false List.not_mem_nil ?_
    rintro ⟨names, filled, -, p, hp, leads⟩
    have here : p.segments = [] := List.length_eq_zero_iff.1 (Nat.le_zero.1 (high p hp))
    exact filled (List.prefix_nil.1 (here ▸ leads))
  | succ height ih =>
    have high' (name : String) : ∀ p ∈ below name ps, p.segments.length ≤ height := fun p hp =>
      Nat.le_of_succ_le_succ (high _ (mem_below.1 hp))
    rw [opened_treeEntries_succ, List.mem_flatMap]
    simp only [List.mem_cons, ih (high' _)]
    constructor
    · rintro ⟨name, child, rfl | ⟨names, -, rfl, p, hp, leads⟩⟩
      · obtain ⟨p, hp, first⟩ := mem_childNames.1 child
        obtain ⟨rest, split⟩ := List.head?_eq_some_iff.1 first
        exact ⟨[name], by simp, rfl, p, hp, rest, split.symm⟩
      · refine ⟨name :: names, by simp, by simp, _, mem_below.1 hp, ?_⟩
        exact List.prefix_cons_iff.2 (.inr ⟨names, rfl, leads⟩)
    · rintro ⟨names, filled, rfl, p, hp, rest, split⟩
      obtain ⟨name, names, rfl⟩ := List.exists_cons_of_ne_nil filled
      have child : name ∈ childNames ps := mem_childNames.2 ⟨p, hp, by rw [← split]; rfl⟩
      refine ⟨name, child, ?_⟩
      cases names with
      | nil => exact .inl rfl
      | cons next names =>
        have placed : (⟨next :: names ++ rest, p.artifact⟩ : Placed) ∈ below name ps := by
          refine mem_below.2 ?_
          show (⟨name :: next :: names ++ rest, p.artifact⟩ : Placed) ∈ ps
          rwa [split]
        exact .inr ⟨next :: names, by simp, by simp, _, placed, List.prefix_append _ rest⟩

/-- It opens each of them once. -/
theorem nodup_opened_treeEntries {height : Nat} {ps : List Placed}
    (high : ∀ p ∈ ps, p.segments.length ≤ height) (path : List String) :
    (opened (treeEntries path height ps)).Nodup := by
  induction height generalizing path ps with
  | zero =>
    rw [treeEntries, opened_lineEntries]
    exact .nil
  | succ height ih =>
    have high' (name : String) : ∀ p ∈ below name ps, p.segments.length ≤ height := fun p hp =>
      Nat.le_of_succ_le_succ (high _ (mem_below.1 hp))
    -- what is opened below a name leads through the module of that name
    have through {name : String} {path' : List String}
        (h : path' ∈ (path ++ [name]) ::
          opened (treeEntries (path ++ [name]) height (below name ps))) :
        path ++ [name] <+: path' := by
      rcases List.mem_cons.1 h with rfl | h
      · exact List.prefix_rfl
      · obtain ⟨names, -, rfl, -⟩ := (mem_opened_treeEntries (high' name)).1 h
        exact List.prefix_append _ names
    rw [opened_treeEntries_succ, List.nodup_flatMap]
    refine ⟨fun name _ => List.nodup_cons.2 ⟨fun again => ?_, ih (high' name) _⟩, ?_⟩
    · obtain ⟨names, filled, same, -⟩ := (mem_opened_treeEntries (high' name)).1 again
      exact filled (List.self_eq_append_right.1 same)
    · refine (nodup_childNames ps).imp fun {n n'} differ path' h h' => differ ?_
      have same := (List.prefix_of_prefix_length_le (through h) (through h') (by simp)).eq_of_length
        (by simp)
      simpa using same

/-- Each module that leads to an artifact is opened once. -/
theorem count_opened_treeEntries {height : Nat} {ps : List Placed}
    (high : ∀ p ∈ ps, p.segments.length ≤ height) (path : List String) :
    (opened (treeEntries [] height ps)).count path =
      if path ≠ [] ∧ ∃ p ∈ ps, path <+: p.segments then 1 else 0 := by
  rw [(nodup_opened_treeEntries high []).count]
  refine if_congr ?_ rfl rfl
  rw [mem_opened_treeEntries high]
  constructor
  · rintro ⟨names, filled, rfl, leads⟩
    exact ⟨filled, leads⟩
  · rintro ⟨filled, leads⟩
    exact ⟨path, filled, rfl, leads⟩

/-- Lines in front of a tree open nothing. -/
theorem opened_joined_lineEntries (path : List String) (ls : List Line) (es : List Entry) :
    opened (Source.joined (.holds path []) [lineEntries path ls, es]) = opened es := by
  have none : opened (lineEntries path ls) = [] := opened_lineEntries path ls
  rw [opened, Source.filterMap_joined rfl, List.flatMap_cons, List.flatMap_singleton]
  exact (congrArg (· ++ opened es) none).trans (List.nil_append _)

/-! ## Held lines -/

theorem held_lineEntries (path : List String) (ls : List Line) :
    held path (lineEntries path ls) = ls.map Line.chars := by
  rw [held, lineEntries, List.filterMap_map, ← List.filterMap_eq_map']
  exact congrArg (ls.filterMap ·) (funext fun l => if_pos rfl)

theorem held_lineEntries_of_ne {path path' : List String} (other : path ≠ path')
    (ls : List Line) : held path' (lineEntries path ls) = [] :=
  List.filterMap_eq_nil_iff.2 (List.forall_mem_map.2 fun _ _ => if_neg other)

theorem held_treeEntries_succ {path path' : List String} (other : path ≠ path') (height : Nat)
    (ps : List Placed) :
    held path' (treeEntries path (height + 1) ps) = (childNames ps).flatMap fun name =>
      held path' (treeEntries (path ++ [name]) height (below name ps)) := by
  have blank : Entry.heldAt? path' (.holds path []) = none := if_neg other
  have here (ls : List Line) : (lineEntries path ls).filterMap (Entry.heldAt? path') = [] :=
    held_lineEntries_of_ne other ls
  rw [treeEntries, held, Source.filterMap_joined blank, List.flatMap_append, List.flatMap_cons,
    List.flatMap_singleton, here, here, List.flatMap_map]
  rfl

/-- What a tree holds is in its own module or in one further in. -/
theorem held_treeEntries_of_not_prefix {path path' : List String} (apart : ¬ path <+: path')
    (height : Nat) (ps : List Placed) : held path' (treeEntries path height ps) = [] := by
  have other {path : List String} (apart : ¬ path <+: path') : path ≠ path' := fun same =>
    apart (same ▸ List.prefix_rfl)
  induction height generalizing path ps with
  | zero => exact held_lineEntries_of_ne (other apart) _
  | succ height ih =>
    rw [held_treeEntries_succ (other apart), List.flatMap_eq_nil_iff]
    exact fun name _ => ih
      (fun inside => apart ((List.prefix_append path [name]).trans inside)) (below name ps)

theorem flatMap_eq_of_mem {α β : Type} {f : α → List β} {xs : List α} {x : α} (nodup : xs.Nodup)
    (mem : x ∈ xs) (others : ∀ y, y ≠ x → f y = []) : xs.flatMap f = f x := by
  obtain ⟨before, after, rfl⟩ := List.append_of_mem mem
  obtain ⟨apart, -⟩ := List.nodup_cons.1 (List.nodup_middle.1 nodup)
  have none {ys : List α} (absent : x ∉ ys) : ys.flatMap f = [] :=
    List.flatMap_eq_nil_iff.2 fun y hy => others y fun same => absent (same ▸ hy)
  rw [List.mem_append, not_or] at apart
  rw [List.flatMap_append, List.flatMap_cons, none apart.1, none apart.2, List.nil_append,
    List.append_nil]

theorem held_append_blank (path : List String) (es es' : List Entry) :
    held path (es ++ .holds path [] :: es') = held path es ++ [] :: held path es' := by
  have blank : Entry.heldAt? path (.holds path []) = some [] := if_pos rfl
  rw [held, List.filterMap_append, List.filterMap_cons_some blank]
  rfl

/-- Of entries further in just the blank lines between them are in the module. -/
theorem held_joined_of_inner {path : List String} {ess : List (List Entry)}
    (inner : ∀ es ∈ ess, held path es = []) :
    ∃ blanks, held path (Source.joined (.holds path []) ess) = .replicate blanks [] := by
  induction ess with
  | nil => exact ⟨0, rfl⟩
  | cons es ess ih =>
    obtain ⟨first, others⟩ := List.forall_mem_cons.1 inner
    obtain ⟨blanks, rest⟩ := ih others
    rw [Source.joined_cons]
    split_ifs
    · exact ⟨blanks, rest⟩
    · exact ⟨0, first⟩
    · refine ⟨blanks + 1, ?_⟩
      rw [held_append_blank, first, rest]
      rfl

theorem lineEntries_eq_nil {path : List String} {ls : List Line} :
    lineEntries path ls = [] ↔ ls = [] :=
  List.map_eq_nil_iff

theorem held_joined_lineEntries {path : List String} {gs : List (List Line)}
    {ess : List (List Entry)} (ls : List Line) {blanks : Nat}
    (h : held path (Source.joined (.holds path []) ess) =
      (Source.spaced gs).map Line.chars ++ .replicate blanks []) :
    ∃ blanks, held path (Source.joined (.holds path []) (lineEntries path ls :: ess)) =
      (Source.spaced (ls :: gs)).map Line.chars ++ .replicate blanks [] := by
  rw [Source.joined_cons, Source.spaced_cons]
  simp only [lineEntries_eq_nil]
  by_cases empty : ls = []
  · rw [if_pos empty, if_pos empty]
    exact ⟨blanks, h⟩
  rw [if_neg empty, if_neg empty]
  by_cases last : Source.joined (.holds path []) ess = []
  · have none : Source.spaced gs = [] := by
      rw [last] at h
      exact List.map_eq_nil_iff.1 (List.append_eq_nil_iff.1 h.symm).1
    rw [if_pos last, if_pos none, held_lineEntries]
    exact ⟨0, (List.append_nil _).symm⟩
  rw [if_neg last, held_append_blank, held_lineEntries, h]
  split_ifs with none
  · exact ⟨blanks + 1, by rw [none]; rfl⟩
  · exact ⟨blanks, by rw [List.map_append, List.append_assoc]; rfl⟩

/-- Lines in front of a tree are in no other module. -/
theorem held_joined_lineEntries_of_ne {path path' : List String} (other : path ≠ path')
    (ls : List Line) (es : List Entry) :
    held path' (Source.joined (.holds path []) [lineEntries path ls, es]) = held path' es := by
  have blank : Entry.heldAt? path' (.holds path []) = none := if_neg other
  have first : (lineEntries path ls).filterMap (Entry.heldAt? path') = [] :=
    held_lineEntries_of_ne other ls
  rw [held, Source.filterMap_joined blank, List.flatMap_cons, List.flatMap_singleton, first]
  rfl

/-- Besides the modules in it, the root of a tree holds its own lines and its exports. -/
theorem held_treeEntries_root (path : List String) (height : Nat) (ps : List Placed) :
    ∃ blanks, held path (treeEntries path (height + 1) ps) =
      (Source.spaced [ownLines ps, exportLines ps]).map Line.chars ++ .replicate blanks [] := by
  have inner : ∀ es ∈ (childNames ps).map fun name =>
      Entry.opens (path ++ [name]) :: treeEntries (path ++ [name]) height (below name ps),
      held path es = [] := by
    refine List.forall_mem_map.2 fun name _ => ?_
    refine held_treeEntries_of_not_prefix (fun inside => ?_) height (below name ps)
    exact absurd inside.length_le (by simp)
  obtain ⟨blanks, modules⟩ := held_joined_of_inner inner
  have modules : held path (Source.joined (.holds path []) _) =
      (Source.spaced []).map Line.chars ++ .replicate blanks [] := modules
  obtain ⟨blanks, exports⟩ := held_joined_lineEntries (exportLines ps) modules
  exact held_joined_lineEntries (ownLines ps) exports

/-- Nothing is placed below a tree of no height. -/
theorem held_treeEntries_zero {ps : List Placed} (here : ∀ p ∈ ps, p.segments = [])
    (path names : List String) :
    held (path ++ names) (treeEntries path 0 ps) =
      (Source.spaced [ownLines (descend names ps), exportLines (descend names ps)]).map
        Line.chars := by
  cases names with
  | nil =>
    have noExport : exportLines ps = [] :=
      List.filterMap_eq_nil_iff.2 fun p hp => by rw [here p hp]
    have own : Source.spaced [ownLines ps, []] = ownLines ps := by
      have none : Source.spaced [[]] = Source.spaced [] := rfl
      rw [Source.spaced_cons, none, ← Source.spaced_cons]
      exact Source.joined_singleton Line.blank (ownLines ps)
    rw [List.append_nil, treeEntries, held_lineEntries, descend, noExport, own]
  | cons name names =>
    have noChild : name ∉ childNames ps := by
      intro child
      obtain ⟨p, hp, first⟩ := mem_childNames.1 child
      rw [here p hp] at first
      cases first
    rw [descend, below_eq_nil noChild, descend_nil]
    exact held_lineEntries_of_ne (by simp) _

/-- Each module of a tree holds its own lines and its exports. -/
theorem held_treeEntries {height : Nat} {ps : List Placed}
    (high : ∀ p ∈ ps, p.segments.length ≤ height) (path names : List String) :
    ∃ blanks, held (path ++ names) (treeEntries path height ps) =
      (Source.spaced [ownLines (descend names ps), exportLines (descend names ps)]).map
        Line.chars ++ .replicate blanks [] := by
  induction height generalizing path names ps with
  | zero =>
    have here : ∀ p ∈ ps, p.segments = [] := fun p hp =>
      List.length_eq_zero_iff.1 (Nat.le_zero.1 (high p hp))
    exact ⟨0, by rw [held_treeEntries_zero here, List.replicate_zero, List.append_nil]⟩
  | succ height ih =>
    cases names with
    | nil =>
      rw [List.append_nil]
      exact held_treeEntries_root path height ps
    | cons name names =>
      have apart : ∀ name', name' ≠ name →
          held (path ++ name :: names)
            (treeEntries (path ++ [name']) height (below name' ps)) = [] := by
        intro name' differ
        refine held_treeEntries_of_not_prefix (fun inside => differ ?_) height (below name' ps)
        simpa using inside
      rw [held_treeEntries_succ (by simp), descend]
      by_cases child : name ∈ childNames ps
      · have high' : ∀ p ∈ below name ps, p.segments.length ≤ height := fun p hp =>
          Nat.le_of_succ_le_succ (high _ (mem_below.1 hp))
        obtain ⟨blanks, inside⟩ := ih high' (path ++ [name]) names
        rw [flatMap_eq_of_mem (nodup_childNames ps) child apart]
        exact ⟨blanks, by rwa [List.append_assoc, List.singleton_append] at inside⟩
      · refine ⟨0, ?_⟩
        rw [below_eq_nil child, descend_nil, List.flatMap_eq_nil_iff.2]
        · rfl
        · exact fun name' child' => apart name' fun same => child (same ▸ child')

end Placed

/-! ## Sources open no module -/

namespace Source

theorem Silent.inner {text : String} (h : Silent text) : (Line.outer text).Inner := by
  intro name opened
  rw [h.declaration?] at opened
  exact nomatch opened

theorem inner_useLine (path : String) : (useLine path).Inner := by
  intro name opened
  exact nomatch (declaration?_use path).symm.trans opened

theorem inner_spaced {gs : List (List Line)} (h : ∀ g ∈ gs, ∀ l ∈ g, l.Inner) :
    ∀ l ∈ spaced gs, l.Inner :=
  (forall_mem_spaced nofun).2 h

theorem inner_block {opening closing : String} (first : (Line.outer opening).Inner)
    (last : (Line.outer closing).Inner) (body : List Line) :
    ∀ l ∈ block opening body closing, l.Inner := by
  refine List.forall_mem_append.2 ⟨List.forall_mem_cons.2 ⟨first, ?_⟩,
    List.forall_mem_singleton.2 last⟩
  refine List.forall_mem_map.2 fun l _ name opened => ?_
  rw [declaration?_deeper] at opened
  exact nomatch opened

theorem inner_of_declarations {ls : List Line} (none : declarations ls = []) :
    ∀ l ∈ ls, l.Inner :=
  (@items_of_declarations ls [] none).2

theorem inner_importLines (settings : Settings) (l : Layout) :
    ∀ line ∈ importLines settings l, line.Inner := by
  refine inner_spaced (List.forall_mem_cons.2 ⟨?_, List.forall_mem_singleton.2 ?_⟩)
  · exact List.forall_mem_map.2 fun name _ => inner_useLine _
  · exact List.forall_mem_map.2 fun path _ => inner_useLine path

theorem inner_structLines (m : MessageDecl) (l : Layout) :
    ∀ line ∈ structLines m l, line.Inner := by
  have struct (rest : String) : (Line.outer ("pub struct " ++ m.name ++ rest)).Inner := by
    intro name opened
    rw [String.append_assoc] at opened
    have item : (Line.outer ("pub struct " ++ (m.name ++ rest))).declaration? =
        some (.item (word (m.name ++ rest).toList)) := by
      show WireCodec.declaration? ("pub struct " ++ (m.name ++ rest)).toList = _
      rw [String.toList_append]
      rfl
    exact nomatch item.symm.trans opened
  refine List.forall_mem_append.2 ⟨inner_of_declarations (declarations_title m), ?_⟩
  split
  · exact List.forall_mem_singleton.2 (struct _)
  · exact inner_block (struct _) silent_close.inner _

/-- The module of a message opens no module, whatever the names in it are. -/
theorem inner_moduleLines (settings : Settings) (m : MessageDecl) (l : Layout) (p : Program) :
    ∀ line ∈ moduleLines settings m l p, line.Inner := by
  refine inner_spaced ?_
  simp only [List.forall_mem_cons]
  exact ⟨⟨(silent_header m).inner, nofun⟩, inner_importLines settings l, inner_structLines m l,
    inner_of_declarations (declarations_defaultLines m l),
    inner_of_declarations (declarations_idLines m p),
    inner_of_declarations (declarations_codecLines m p),
    inner_of_declarations (declarations_messageLines m), nofun⟩

theorem inner_indexLines (plan : DispatchPlan) : ∀ line ∈ indexLines plan, line.Inner := by
  have header :=
    Silent.literal "// Message index: generated by protogen, do not edit." rfl fun _ => rfl
  refine inner_spaced (List.forall_mem_cons.2 ⟨List.forall_mem_singleton.2 header.inner,
    List.forall_mem_singleton.2 (List.forall_mem_map.2 fun e _ name opened => ?_)⟩)
  exact nomatch (declaration?_pubUse e.path).symm.trans opened

end Source

/-! ## The tree of a run -/

/-- Printed lines that are read back are printed the same. -/
theorem Source.print_linesOf_print {ls : List Line} (neat : Neat ls) :
    print (linesOf (print ls)) = print ls := by
  have flat (l : Line) : l.flat.print = l.print := by
    rw [← String.toList_inj, Line.toList_print, Line.toList_print, Line.chars_flat]
  rw [linesOf_print neat, print, List.map_map, print]
  exact congrArg (fun f => String.join (ls.map f)) (funext flat)

/-- An artifact whose source is printed from lines that open no module. -/
structure Artifact.PrintsInner (a : Artifact) : Prop where
  clean : Placed.Clean Unbroken ⟨a.segments, a⟩
  source : Source.print (Source.linesOf a.source) = a.source

theorem Artifact.printsInner {a : Artifact} (segments : ∀ s ∈ a.segments, IsSegment s)
    {ls : List Line} (source : a.source = Source.print ls) (filled : ls ≠ [])
    (neat : Source.Neat ls) (inner : ∀ l ∈ ls, l.Inner)
    (exported : ∀ name, a.reexport = some name → Unbroken name) : a.PrintsInner := by
  refine ⟨⟨segments, ?_, ?_, ?_, exported⟩, ?_⟩
  · rw [source]
    exact Source.linesOf_print_ne_nil filled
  · rw [source]
    exact neat_linesOf_print neat
  · rw [source, Source.linesOf_print neat]
    refine List.forall_mem_map.2 fun l hl name opened => inner l hl name ?_
    rwa [declaration?_flat] at opened
  · rw [source]
    exact Source.print_linesOf_print neat

theorem printsInner_of_generate {s : Schema} {settings : Settings} {o : Output}
    (h : s.generate settings = .ok o) (plain : s.OnLines settings) :
    ∀ a ∈ o.artifacts, a.PrintsInner := by
  obtain ⟨-, each, registry, index⟩ := Schema.generate_eq_ok h
  refine List.forall_mem_append.2 ⟨fun a ha => ?_, ?_⟩
  · obtain ⟨m, hm, l, planned, rfl⟩ := exists_of_mem_right each ha
    refine Artifact.printsInner (isSegment_messageSegments settings m.package m.name) rfl
      (Source.moduleLines_ne_nil settings m l _) (plain.neat_moduleLines hm planned)
      (Source.inner_moduleLines settings m l _) fun name exported => ?_
    cases exported
    exact plain.names m hm
  · rw [List.forall_mem_cons, List.forall_mem_singleton, registry, index]
    exact ⟨Artifact.printsInner (List.forall_mem_singleton.2 (by decide)) rfl
        (Source.registryLines_ne_nil _) (Source.neat_registryLines plain.paths plain.names)
        (items_of_declarations (Source.declarations_registryLines settings _)).2 nofun,
      Artifact.printsInner (List.forall_mem_singleton.2 (by decide)) rfl
        (Source.indexLines_ne_nil _) (Source.neat_indexLines plain.paths plain.names)
        (Source.inner_indexLines _) nofun⟩

namespace Placed

/-- The line by which the module at a path exports an artifact right below it. -/
def exportFrom (path : List String) (p : Placed) : Option Line :=
  p.artifact.reexport.bind fun name => p.segments.getLast?.bind fun leaf =>
    if p.segments = path ++ [leaf] then some (.outer ("pub use " ++ leaf ++ "::" ++ name ++ ";"))
    else none

theorem exportLines_eq (ps : List Placed) : exportLines ps = ps.filterMap (exportFrom []) := by
  refine List.filterMap_congr fun p _ => ?_
  obtain ⟨segments, artifact⟩ := p
  rcases segments with _ | ⟨leaf, _ | ⟨next, rest⟩⟩ <;> cases named : artifact.reexport <;>
    simp [exportFrom, named]

theorem filterMap_exportFrom_below (name : String) (path : List String) (ps : List Placed) :
    (below name ps).filterMap (exportFrom path) = ps.filterMap (exportFrom (name :: path)) := by
  rw [below, List.filterMap_filterMap]
  refine List.filterMap_congr fun p _ => ?_
  obtain ⟨segments, artifact⟩ := p
  rcases segments with _ | ⟨first, _ | ⟨next, rest⟩⟩
  · simp [exportFrom]
  · by_cases same : first = name <;> simp [exportFrom, same]
  · by_cases same : first = name <;> simp [exportFrom, same, List.getLast?_cons_cons]

theorem exportLines_descend (path : List String) (ps : List Placed) :
    exportLines (descend path ps) = ps.filterMap (exportFrom path) := by
  induction path generalizing ps with
  | nil => exact exportLines_eq ps
  | cons name path ih => rw [descend, ih, filterMap_exportFrom_below]

end Placed

/-- The messages right below a module, as it exports them. -/
def Schema.exportsAt (s : Schema) (settings : Settings) (path : List String) : List Line :=
  (s.messages.filter fun m => (settings.messageSegments m.package m.name).dropLast = path).map
    fun m => .outer ("pub use " ++ identifier m.name ++ "::" ++ m.name ++ ";")

namespace Output

open Placed

section Run

variable {s : Schema} {settings : Settings} {o : Output} (h : s.generate settings = .ok o)

include h

theorem exportLines_placed (path : List String) :
    exportLines (descend path o.placed) = s.exportsAt settings path := by
  obtain ⟨-, each, registry, index⟩ := Schema.generate_eq_ok h
  have own (m : MessageDecl) (l : Layout) :
      exportFrom path ⟨(Artifact.ofLayout settings m l).segments, .ofLayout settings m l⟩ =
        if (settings.messageSegments m.package m.name).dropLast = path then
          some (.outer ("pub use " ++ identifier m.name ++ "::" ++ m.name ++ ";"))
        else none := by
    simp [exportFrom, Artifact.ofLayout, Settings.messageSegments]
  have modules :
      [o.registry, o.index].filterMap (fun a => exportFrom path ⟨a.segments, a⟩) = [] := by
    rw [registry, index]
    rfl
  have messages : o.messages.filterMap (fun a => exportFrom path ⟨a.segments, a⟩) =
      s.exportsAt settings path := by
    unfold Schema.exportsAt
    generalize s.messages = ms, o.messages = as at each
    induction each with
    | nil => rfl
    | cons made _ ih =>
      obtain ⟨l, -, rfl⟩ := made
      rw [List.filterMap_cons, own, ih, List.filter_cons]
      split_ifs <;> simp_all
  rw [exportLines_descend, placed_of_generate h, List.filterMap_map, artifacts,
    List.filterMap_append]
  exact (congrArg₂ (· ++ ·) messages modules).trans (List.append_nil _)

/-- A module with an artifact holds its source. -/
theorem ownLines_placed (distinct : (o.artifacts.map (·.segments)).Nodup) {a : Artifact}
    (ha : a ∈ o.artifacts) :
    ownLines (descend a.segments o.placed) = Source.linesOf a.source := by
  have here : ∀ p ∈ (descend a.segments o.placed).filter (·.segments.isEmpty), p.artifact = a := by
    intro p hp
    obtain ⟨hp, empty⟩ := List.mem_filter.1 hp
    obtain ⟨mem, segments⟩ := (mem_descend_placed h).1 hp
    rw [List.isEmpty_iff.1 empty, List.append_nil] at segments
    exact List.inj_on_of_nodup_map distinct mem ha segments
  have filled : (⟨[], a⟩ : Placed) ∈
      (descend a.segments o.placed).filter (·.segments.isEmpty) :=
    List.mem_filter.2 ⟨(mem_descend_placed h).2 ⟨ha, (List.append_nil _).symm⟩, rfl⟩
  unfold ownLines own?
  cases last : ((descend a.segments o.placed).filter (·.segments.isEmpty)).getLast? with
  | none => exact absurd (List.getLast?_eq_none_iff.1 last) (List.ne_nil_of_mem filled)
  | some p =>
    simp only
    rw [here p (List.mem_of_getLast? last)]

/-- A module without an artifact holds nothing of its own. -/
theorem ownLines_placed_eq_nil {path : List String} (none : ∀ a ∈ o.artifacts, a.segments ≠ path) :
    ownLines (descend path o.placed) = [] := by
  have empty : (descend path o.placed).filter (·.segments.isEmpty) = [] := by
    refine List.filter_eq_nil_iff.2 fun p hp empty => ?_
    obtain ⟨mem, segments⟩ := (mem_descend_placed h).1 hp
    rw [List.isEmpty_iff.1 empty, List.append_nil] at segments
    exact none _ mem segments
  rw [ownLines, own?, empty]
  rfl

/-- The tree of modules opens the module of each artifact, inside the modules that lead there, each
once, and no other module. Each module holds the source of its artifact if it has one, and nothing
of its own otherwise, but for the comment at the root; then the exports of the messages right below
it in the order of the schema; and else just blank lines. -/
theorem entries_moduleTree (plain : s.OnLines settings) :
    ∃ es, entries? o.moduleTree = some es ∧
      (∀ path, (opened es).count path =
        if path ≠ [] ∧ ∃ a ∈ o.artifacts, path <+: a.segments then 1 else 0) ∧
      ∀ path, ∃ own blanks,
        held path es = (Source.spaced [own, s.exportsAt settings path]).map Line.chars ++
          .replicate blanks [] ∧
        (∀ a ∈ o.artifacts, a.segments = path → Source.print own = a.source) ∧
        ((∀ a ∈ o.artifacts, a.segments ≠ path) →
          own = if path = [] then
            [.outer "// Protocol modules: generated by protogen, do not edit."] else []) := by
  let header : Line := .outer "// Protocol modules: generated by protogen, do not edit."
  let tree := treeEntries [] (Placed.height o.placed) o.placed
  have prints := printsInner_of_generate h plain
  have clean : ∀ p ∈ o.placed, p.Clean Unbroken := by
    rw [placed_of_generate h]
    exact List.forall_mem_map.2 fun a ha => (prints a ha).clean
  have high : ∀ p ∈ o.placed, p.segments.length ≤ Placed.height o.placed := length_le_height
  have distinct := Schema.nodup_segments h
  have comment : Source.Silent "// Protocol modules: generated by protogen, do not edit." :=
    .literal _ rfl fun _ => rfl
  have reads : HasEntries [] (Source.spaced [[header], treeLines (Placed.height o.placed) o.placed])
      (Source.joined (.holds [] []) [lineEntries [] [header], tree]) :=
    (hasEntries_line comment.inner).spaced_cons
      ((hasEntries_treeLines clean).spaced_cons (hasEntries_nil []))
  have neat : Source.Neat
      (Source.spaced [[header], treeLines (Placed.height o.placed) o.placed]) := by
    rw [Source.neat_spaced, List.forall_mem_cons, List.forall_mem_singleton]
    exact ⟨by decide, neat_treeLines clean⟩
  rw [moduleTree_of_generate h]
  refine ⟨_, entries?_print neat reads, fun path => ?_, fun path => ?_⟩
  · have leads : (∃ p ∈ o.placed, path <+: p.segments) ↔
        ∃ a ∈ o.artifacts, path <+: a.segments := by
      simp [placed_of_generate h]
    rw [opened_joined_lineEntries, count_opened_treeEntries high]
    exact if_congr (and_congr_right' leads) rfl rfl
  obtain ⟨blanks, inside⟩ := held_treeEntries high [] path
  rw [List.nil_append, exportLines_placed h] at inside
  by_cases root : path = []
  · subst root
    have bare : ∀ a ∈ o.artifacts, a.segments ≠ [] := segments_ne_nil h
    have exports : held [] (Source.joined (.holds [] []) [tree]) =
        (Source.spaced [s.exportsAt settings []]).map Line.chars ++ .replicate blanks [] := by
      rw [ownLines_placed_eq_nil h bare, Source.spaced_cons, if_pos rfl] at inside
      rw [Source.joined_singleton, inside]
    obtain ⟨blanks, whole⟩ := held_joined_lineEntries [header] exports
    exact ⟨[header], blanks, whole, fun a ha here => absurd here (bare a ha), fun _ => rfl⟩
  · have inside' := (held_joined_lineEntries_of_ne (Ne.symm root) [header] tree).trans inside
    refine ⟨_, blanks, inside', fun a ha here => ?_, fun none => ?_⟩
    · rw [← here, ownLines_placed h distinct ha, (prints a ha).source]
    · rw [ownLines_placed_eq_nil h none, if_neg root]

end Run

/-- A message whose module is the package of another message. -/
def chatSchema : Schema where
  messages :=
    [{ name := "Chat", package := "game", protocolId := 1 },
      { name := "Ping", package := "game.chat", protocolId := 2 }]

/-- The module of the first message is opened once, and it holds the source of that message and
exports the second. -/
theorem entries_moduleTree_chat :
    ∃ o, chatSchema.generate {} = .ok o ∧ ∃ es, entries? o.moduleTree = some es ∧
      (opened es).count ["game", "chat"] = 1 ∧
      ∃ a ∈ o.artifacts, a.name = "Chat" ∧ ∃ own blanks, Source.print own = a.source ∧
        held ["game", "chat"] es =
          (Source.spaced [own, [.outer "pub use ping::Ping;"]]).map Line.chars ++
            .replicate blanks [] := by
  obtain ⟨o, generated⟩ := exists_of_isOk (show (chatSchema.generate {}).isOk by decide +kernel)
  obtain ⟨es, read, counts, contents⟩ := entries_moduleTree generated
    ⟨by decide, by decide, nofun, ⟨by decide, by decide, by decide⟩⟩
  obtain ⟨-, each, -⟩ := Schema.generate_eq_ok generated
  obtain ⟨a, ha, l, -, rfl⟩ := exists_of_mem_left each List.mem_cons_self
  have mem := List.mem_append_left [o.registry, o.index] ha
  have segments : Settings.messageSegments {} "game" "Chat" = ["game", "chat"] := by decide +kernel
  have exports : chatSchema.exportsAt {} ["game", "chat"] = [.outer "pub use ping::Ping;"] := by
    decide +kernel
  obtain ⟨own, blanks, holds, source, -⟩ := contents ["game", "chat"]
  rw [exports] at holds
  refine ⟨o, generated, es, read, ?_, _, mem, rfl, own, blanks, source _ mem segments, holds⟩
  have leads : ["game", "chat"] <+: Settings.messageSegments {} "game" "Chat" :=
    segments ▸ List.prefix_rfl
  rw [counts, if_pos ⟨List.cons_ne_nil _ _, _, mem, leads⟩]

end Output

end WireCodec
