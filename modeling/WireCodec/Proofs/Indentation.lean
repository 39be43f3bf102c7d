import WireCodec.Proofs.SourceLines

/-!
# Indentation

Code is indented as its brackets ask for (`WellIndented`): a line that starts with a closing bracket
stands one level further out than the lines in front of it, and behind a line that ends with an
opening bracket it is one level further in. Lines have this property wherever they stand if they are
put together from statements and blocks (`Source.Nested`), and printed they keep it
(`Source.wellIndented_print`).
-/

namespace WireCodec

/-! ## Depths of lines -/

/-- A bracket that opens a level. -/
def isOpening (c : Char) : Bool := c == '\x7b' || c == '['

/-- A bracket that closes a level. -/
def isClosing (c : Char) : Bool := c == '\x7d' || c == ']'

/-- The line opens a level for those behind it. -/
def opensLevel (line : List Char) : Bool := line.getLast?.any isOpening

/-- The line closes the level of those in front of it. -/
def closesLevel (line : List Char) : Bool := (line.dropWhile (·.isWhitespace)).head?.any isClosing

/-- The depth of a line, given the depth that those in front of it leave. -/
def depthAt (depth : Int) (line : List Char) : Int := if closesLevel line then depth - 1 else depth

/-- The depth that a line leaves. -/
def depthBehind (depth : Int) (line : List Char) : Int :=
  if opensLevel line then depthAt depth line + 1 else depthAt depth line

/-- The lines, each with its depth. -/
def withDepths (depth : Int) : List (List Char) → List (List Char × Int)
  | [] => []
  | line :: lines => (line, depthAt depth line) :: withDepths (depthBehind depth line) lines

/-- The depth is not negative, and the line is indented by four spaces for each level of it, unless
it is empty. -/
structure Fits (line : List Char) (depth : Int) : Prop where
  nonneg : 0 ≤ depth
  indented : line ≠ [] → line.takeWhile (·.isWhitespace) = indent depth.toNat

/-- Each line fits its depth, and in the end every level is closed. -/
structure WellIndented (text : String) : Prop where
  fits : ∀ p ∈ withDepths 0 ((Source.linesOf text).map Line.chars), Fits p.1 p.2
  closed : ((Source.linesOf text).map Line.chars).foldl depthBehind 0 = 0

theorem withDepths_append (depth : Int) (lines lines' : List (List Char)) :
    withDepths depth (lines ++ lines') =
      withDepths depth lines ++ withDepths (lines.foldl depthBehind depth) lines' := by
  induction lines generalizing depth with
  | nil => rfl
  | cons line lines ih =>
    rw [List.cons_append, withDepths, ih]
    rfl

/-! ## First and last characters -/

/-- The first character of the text is of the given kind. -/
def FirstIs (kind : Char → Bool) (text : String) : Prop := text.toList.head?.any kind

/-- The last character of the text is of the given kind. -/
def LastIs (kind : Char → Bool) (text : String) : Prop := text.toList.getLast?.any kind

instance (kind : Char → Bool) (text : String) : Decidable (FirstIs kind text) :=
  inferInstanceAs (Decidable (_ = true))

instance (kind : Char → Bool) (text : String) : Decidable (LastIs kind text) :=
  inferInstanceAs (Decidable (_ = true))

@[simp] theorem firstIs_append {kind : Char → Bool} {text rest : String} :
    FirstIs kind (text ++ rest) ↔ FirstIs kind text ∨ text = "" ∧ FirstIs kind rest := by
  cases first : text.toList with
  | nil => simp [FirstIs, String.toList_eq_nil_iff.1 first]
  | cons c cs =>
    have filled : text ≠ "" := fun empty => by simp [empty] at first
    simp [FirstIs, first, filled]

@[simp] theorem lastIs_append {kind : Char → Bool} {front text : String} :
    LastIs kind (front ++ text) ↔ LastIs kind text ∨ text = "" ∧ LastIs kind front := by
  cases last : text.toList.getLast? with
  | none => simp [LastIs, String.toList_eq_nil_iff.1 (List.getLast?_eq_none_iff.1 last)]
  | some c =>
    have filled : text ≠ "" := fun empty => by simp [empty] at last
    simp [LastIs, last, filled, List.getLast?_append]

/-- A character with which a line may start that closes a level, or that closes none. -/
def startsLine (closes : Bool) (c : Char) : Bool := !c.isWhitespace && isClosing c == closes

/-- A character with which a line may end that opens a level, or that opens none. -/
def endsLine (opens : Bool) (c : Char) : Bool := !c.isWhitespace && isOpening c == opens

/-- Whether the text as a line closes and opens a level can be told from its first and its last
character, which are not blank. -/
structure Turns (closes opens : Bool) (text : String) : Prop where
  first : FirstIs (startsLine closes) text
  last : LastIs (endsLine opens) text

@[simp] theorem turns_iff {closes opens : Bool} {text : String} : Turns closes opens text ↔
    FirstIs (startsLine closes) text ∧ LastIs (endsLine opens) text :=
  ⟨fun ⟨first, last⟩ => ⟨first, last⟩, fun ⟨first, last⟩ => ⟨first, last⟩⟩

instance (closes opens : Bool) (text : String) : Decidable (Turns closes opens text) :=
  decidable_of_iff _ turns_iff.symm

/-- A text that is given in full. -/
theorem Turns.literal {closes opens : Bool} {text : String} {xs : List Char}
    (chars : text = .ofList xs)
    (ends : (xs.head?.any (startsLine closes) && xs.getLast?.any (endsLine opens)) = true) :
    Turns closes opens text := by
  obtain ⟨first, last⟩ := Bool.and_eq_true_iff.1 ends
  rw [chars]
  constructor
  · rwa [FirstIs, String.toList_ofList]
  · rwa [LastIs, String.toList_ofList]

/-- The line neither closes nor opens a level. -/
abbrev IsStatement (text : String) : Prop := Turns false false text

namespace Turns

variable {closes opens : Bool} {text : String} (h : Turns closes opens text) (level : Nat)

include h

theorem toList_ne_nil : text.toList ≠ [] := by
  intro empty
  have first := h.first
  simp [FirstIs, empty] at first

theorem shift_eq : Line.shift level text.toList = indent level ++ text.toList :=
  Line.shift_of_ne_nil h.toList_ne_nil

/-- The indentation of the line and what stands behind it. -/
theorem takeWhile_and_dropWhile_shift :
    (Line.shift level text.toList).takeWhile (·.isWhitespace) = indent level ∧
      (Line.shift level text.toList).dropWhile (·.isWhitespace) = text.toList := by
  obtain ⟨c, first, starts⟩ := (Option.any_eq_true _ _).1 h.first
  obtain ⟨cs, split⟩ := List.head?_eq_some_iff.1 first
  have black : ¬ c.isWhitespace := by
    simpa using (Bool.and_eq_true_iff.1 starts).1
  have blank : ∀ d ∈ indent level, d.isWhitespace := by
    intro d hd
    rw [List.eq_of_mem_replicate hd]
    rfl
  rw [h.shift_eq, split, List.takeWhile_append_of_pos blank, List.dropWhile_append_of_pos blank,
    List.takeWhile_cons_of_neg black, List.dropWhile_cons_of_neg black, List.append_nil]
  exact ⟨rfl, rfl⟩

theorem closesLevel_shift : closesLevel (Line.shift level text.toList) = closes := by
  obtain ⟨c, first, starts⟩ := (Option.any_eq_true _ _).1 h.first
  rw [closesLevel, (h.takeWhile_and_dropWhile_shift level).2, first]
  exact eq_of_beq (Bool.and_eq_true_iff.1 starts).2

theorem opensLevel_shift : opensLevel (Line.shift level text.toList) = opens := by
  obtain ⟨c, last, ends⟩ := (Option.any_eq_true _ _).1 h.last
  rw [opensLevel, h.shift_eq, List.getLast?_append, last]
  exact eq_of_beq (Bool.and_eq_true_iff.1 ends).2

theorem getLast?_ne_return : text.toList.getLast? ≠ some '\r' := by
  intro last
  have ends := h.last
  rw [LastIs, last] at ends
  exact nomatch ends

end Turns

/-! ## Nested lines -/

namespace Turns

variable {closes opens : Bool} {text : String} (h : Turns closes opens text) (level : Nat)

include h

theorem fits : Fits (Line.shift level text.toList) level :=
  ⟨Int.natCast_nonneg level, fun _ => (h.takeWhile_and_dropWhile_shift level).1⟩

theorem depthAt_shift (depth : Int) :
    depthAt depth (Line.shift level text.toList) = if closes then depth - 1 else depth := by
  rw [depthAt, h.closesLevel_shift]

theorem depthBehind_shift (depth : Int) :
    depthBehind depth (Line.shift level text.toList) =
      if opens then (if closes then depth - 1 else depth) + 1
      else if closes then depth - 1 else depth := by
  rw [depthBehind, h.opensLevel_shift, h.depthAt_shift]

end Turns

namespace Source

/-- What the lines show at a level. -/
def atLevel (level : Nat) (ls : List Line) : List (List Char) :=
  ls.map fun l => Line.shift level l.chars

theorem atLevel_append (level : Nat) (ls ls' : List Line) :
    atLevel level (ls ++ ls') = atLevel level ls ++ atLevel level ls' := List.map_append

theorem atLevel_outer (level : Nat) (text : String) (ls : List Line) :
    atLevel level (.outer text :: ls) = Line.shift level text.toList :: atLevel level ls := by
  rw [atLevel, List.map_cons, Line.chars_outer]
  rfl

theorem atLevel_deeper (level : Nat) (ls : List Line) :
    atLevel level (ls.map Line.deeper) = atLevel (level + 1) ls := by
  rw [atLevel, List.map_map]
  refine List.map_congr_left fun l _ => ?_
  rw [Function.comp_apply, Line.chars_deeper, Line.shift_shift]

/-- At whatever level the lines stand, each of them fits its depth, and they leave the depth as it
was. -/
structure Nested (ls : List Line) : Prop where
  fits (level : Nat) : ∀ p ∈ withDepths level (atLevel level ls), Fits p.1 p.2
  closed (level : Nat) : (atLevel level ls).foldl depthBehind level = level
  trimmed : ∀ l ∈ ls, l.text.toList.getLast? ≠ some '\r'

theorem nested_nil : Nested [] := ⟨fun _ => nofun, fun _ => rfl, nofun⟩

theorem Nested.append {ls ls' : List Line} (h : Nested ls) (h' : Nested ls') :
    Nested (ls ++ ls') where
  fits level := by
    rw [atLevel_append, withDepths_append, h.closed]
    exact List.forall_mem_append.2 ⟨h.fits level, h'.fits level⟩
  closed level := by rw [atLevel_append, List.foldl_append, h.closed, h'.closed]
  trimmed := List.forall_mem_append.2 ⟨h.trimmed, h'.trimmed⟩

theorem nested_line {text : String} (h : IsStatement text) : Nested [.outer text] where
  fits level := by
    rw [atLevel_outer, withDepths, h.depthAt_shift]
    exact List.forall_mem_singleton.2 (h.fits level)
  closed level := by
    rw [atLevel_outer, List.foldl_cons, h.depthBehind_shift]
    rfl
  trimmed := List.forall_mem_singleton.2 h.getLast?_ne_return

theorem nested_blank : Nested [.blank] where
  fits level :=
    List.forall_mem_singleton.2 ⟨Int.natCast_nonneg level, fun filled => absurd rfl filled⟩
  closed _ := rfl
  trimmed := List.forall_mem_singleton.2 nofun

/-- Behind the line that opens it the body stands one level further in, and the line that closes it
stands where the block began. -/
theorem nested_block {opening closing : String} {body : List Line}
    (first : Turns false true opening) (h : Nested body) (last : Turns true false closing) :
    Nested (block opening body closing) := by
  have lines (level : Nat) : atLevel level (block opening body closing) =
      Line.shift level opening.toList ::
        (atLevel (level + 1) body ++ [Line.shift level closing.toList]) := by
    rw [block, List.cons_append, atLevel_outer, atLevel_append, atLevel_deeper, atLevel_outer]
    rfl
  have inside (level : Nat) :
      depthBehind level (Line.shift level opening.toList) = ((level + 1 : Nat) : Int) := by
    rw [first.depthBehind_shift]
    rfl
  have outside (level : Nat) : ((level + 1 : Nat) : Int) - 1 = level := by omega
  refine ⟨fun level => ?_, fun level => ?_, ?_⟩
  · rw [lines, withDepths, inside, withDepths_append, h.closed, first.depthAt_shift]
    refine List.forall_mem_cons.2 ⟨first.fits level, List.forall_mem_append.2 ⟨h.fits _, ?_⟩⟩
    rw [withDepths, last.depthAt_shift, if_pos rfl, outside]
    exact List.forall_mem_singleton.2 (last.fits level)
  · rw [lines, List.foldl_cons, inside, List.foldl_append, h.closed, List.foldl_cons,
      last.depthBehind_shift]
    exact outside level
  · rw [block]
    refine List.forall_mem_append.2 ⟨List.forall_mem_cons.2 ⟨first.getLast?_ne_return, ?_⟩,
      List.forall_mem_singleton.2 last.getLast?_ne_return⟩
    exact List.forall_mem_map.2 h.trimmed

theorem nested_spaced {gs : List (List Line)} (h : ∀ g ∈ gs, Nested g) : Nested (spaced gs) := by
  induction gs with
  | nil => exact nested_nil
  | cons g gs ih =>
    obtain ⟨first, others⟩ := List.forall_mem_cons.1 h
    have rest := ih others
    rw [spaced_cons]
    split
    · exact rest
    split
    · exact first
    · exact first.append (nested_blank.append rest)

theorem nested_flatMap {α : Type} {f : α → List Line} {xs : List α} (h : ∀ x ∈ xs, Nested (f x)) :
    Nested (xs.flatMap f) := by
  induction xs with
  | nil => exact nested_nil
  | cons x xs ih =>
    obtain ⟨first, others⟩ := List.forall_mem_cons.1 h
    exact first.append (ih others)

theorem nested_of_forall {ls : List Line} (h : ∀ l ∈ ls, Nested [l]) : Nested ls := by
  have lines := nested_flatMap h
  rwa [List.flatMap_singleton'] at lines

theorem nested_map {α : Type} {text : α → String} {xs : List α}
    (h : ∀ x ∈ xs, IsStatement (text x)) : Nested (xs.map fun x => .outer (text x)) :=
  nested_of_forall (List.forall_mem_map.2 fun x hx => nested_line (h x hx))

/-! ## Reading back -/

theorem nested_flat {ls : List Line} (h : Nested ls) : Nested (ls.map Line.flat) := by
  have same (level : Nat) : atLevel level (ls.map Line.flat) = atLevel level ls := by
    rw [atLevel, List.map_map]
    refine List.map_congr_left fun l _ => ?_
    rw [Function.comp_apply, Line.chars_flat]
  refine ⟨fun level => ?_, fun level => ?_, List.forall_mem_map.2 fun l hl => ?_⟩
  · rw [same]
    exact h.fits level
  · rw [same]
    exact h.closed level
  · rw [Line.flat, Line.outer, String.toList_ofList, Line.getLast?_chars]
    exact h.trimmed l hl

theorem wellIndented_print {ls : List Line} (h : Nested ls) (single : ∀ l ∈ ls, OneLine l.text) :
    WellIndented (print ls) := by
  have lines : (linesOf (print ls)).map Line.chars = atLevel 0 ls := by
    rw [linesOf_print_of_oneLine single h.trimmed, List.map_map]
    refine List.map_congr_left fun l _ => ?_
    rw [Function.comp_apply, Line.chars_flat, Line.shift_zero]
  constructor
  · rw [lines]
    exact h.fits 0
  · rw [lines]
    exact h.closed 0

end Source

end WireCodec
