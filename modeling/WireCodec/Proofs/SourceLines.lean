import WireCodec.Source.Tree
import WireCodec.Wire.Text

/-!
# Lines of printed code

Code whose texts hold no line breaks is read back from its printed form line by line
(`Source.linesOf_print`). A line is compared by what it shows (`Line.chars`): the indentation and
the text, or nothing if it is blank.
-/

namespace WireCodec

/-- The text stays on its line. -/
def Unbroken (text : String) : Prop := ∀ c ∈ text.toList, c ≠ '\n' ∧ c ≠ '\r'

theorem mem_utf8 {text : String} {c : Char} (h : c ∈ text.toList) :
    ∀ b ∈ String.utf8EncodeChar c, b ∈ utf8 text := by
  intro b hb
  rw [← String.ofList_toList (s := text), utf8, String.toByteArray_ofList, List.utf8Encode,
    List.data_toByteArray]
  exact List.mem_flatMap.2 ⟨c, h, hb⟩

theorem not_mem_of_utf8 {text : String} {c : Char} {b : UInt8}
    (spelled : b ∈ String.utf8EncodeChar c) (absent : b ∉ utf8 text) : c ∉ text.toList :=
  fun hc => absent (mem_utf8 hc b spelled)

theorem unbroken_of_utf8 {text : String} (h : (utf8 text).all fun b => b != 10 && b != 13) :
    Unbroken text := by
  have absent {b : UInt8} (broken : (b != 10 && b != 13) = false) : b ∉ utf8 text := fun hb =>
    Bool.eq_false_iff.1 broken (List.all_eq_true.1 h b hb)
  intro c hc
  constructor
  · rintro rfl
    exact not_mem_of_utf8 (b := 10) (by decide) (absent rfl) hc
  · rintro rfl
    exact not_mem_of_utf8 (b := 13) (by decide) (absent rfl) hc

-- bytes are computed faster than characters, which are decoded from them
instance (text : String) : Decidable (Unbroken text) :=
  if h : (utf8 text).all fun b => b != 10 && b != 13 then isTrue (unbroken_of_utf8 h)
  else List.decidableBAll (fun c : Char => c ≠ '\n' ∧ c ≠ '\r') text.toList

@[simp] theorem unbroken_append {a b : String} :
    Unbroken (a ++ b) ↔ Unbroken a ∧ Unbroken b := by
  simp only [Unbroken, String.toList_append, List.forall_mem_append]

/-- The text has no line feed. -/
def OneLine (text : String) : Prop := '\n' ∉ text.toList

theorem oneLine_of_utf8 {text : String} (h : (10 : UInt8) ∉ utf8 text) : OneLine text :=
  not_mem_of_utf8 (by decide) h

instance (text : String) : Decidable (OneLine text) :=
  if h : (10 : UInt8) ∉ utf8 text then isTrue (oneLine_of_utf8 h)
  else inferInstanceAs (Decidable (¬ _))

@[simp] theorem oneLine_append {a b : String} : OneLine (a ++ b) ↔ OneLine a ∧ OneLine b := by
  simp [OneLine]

theorem Unbroken.oneLine {text : String} (h : Unbroken text) : OneLine text :=
  fun mem => (h _ mem).1 rfl

theorem Unbroken.getLast?_ne {text : String} (h : Unbroken text) :
    text.toList.getLast? ≠ some '\r' :=
  fun last => (h _ (List.mem_of_getLast? last)).2 rfl

/-- The indentation of so many levels. -/
def indent (levels : Nat) : List Char := .replicate (4 * levels) ' '

theorem indent_add (m n : Nat) : indent (m + n) = indent m ++ indent n := by
  rw [indent, indent, indent, List.replicate_append_replicate, Nat.mul_add]

namespace Line

/-- Characters moved in by so many levels; a blank line stays blank. -/
def shift (levels : Nat) (cs : List Char) : List Char := if cs = [] then [] else indent levels ++ cs

/-- What a line shows. -/
def chars (l : Line) : List Char := shift l.depth l.text.toList

@[simp] theorem shift_nil (levels : Nat) : shift levels [] = [] := if_pos rfl

@[simp] theorem shift_zero (cs : List Char) : shift 0 cs = cs := by
  unfold shift
  split
  · simp_all
  · rfl

theorem shift_of_ne_nil {levels : Nat} {cs : List Char} (h : cs ≠ []) :
    shift levels cs = indent levels ++ cs :=
  if_neg h

theorem shift_shift (m n : Nat) (cs : List Char) : shift m (shift n cs) = shift (m + n) cs := by
  by_cases empty : cs = []
  · simp [empty]
  · rw [shift_of_ne_nil empty, shift_of_ne_nil empty, shift_of_ne_nil (by simp [empty]),
      ← List.append_assoc, ← indent_add]

theorem mem_chars {l : Line} {c : Char} (h : c ∈ l.chars) : c = ' ' ∨ c ∈ l.text.toList := by
  unfold chars shift at h
  split at h
  · exact nomatch h
  · exact (List.mem_append.1 h).imp_left List.eq_of_mem_replicate

theorem getLast?_chars (l : Line) : l.chars.getLast? = l.text.toList.getLast? := by
  unfold chars
  by_cases empty : l.text.toList = []
  · rw [empty, shift_nil]
  · obtain ⟨c, last⟩ := Option.isSome_iff_exists.1 (List.getLast?_isSome.2 empty)
    rw [shift_of_ne_nil empty, List.getLast?_append, last]
    rfl

@[simp] theorem chars_outer (text : String) : (outer text).chars = text.toList := shift_zero _

theorem chars_deeper (l : Line) : l.deeper.chars = shift 1 l.chars := by
  rw [chars, chars, shift_shift, Nat.add_comm]
  rfl

theorem toList_print (l : Line) : l.print.toList = l.chars ++ ['\n'] := by
  unfold print chars shift
  by_cases empty : l.text = ""
  · simp [empty]
  · rw [if_neg empty, if_neg (by simpa using empty)]
    simp [indent]

/-- A line as it is read back: the indentation belongs to the text. -/
def flat (l : Line) : Line := outer (.ofList l.chars)

@[simp] theorem chars_flat (l : Line) : l.flat.chars = l.chars := by simp [flat]

end Line

namespace Source

/-! ## Groups of lines -/

/-- The groups that are not empty, with a separator between each two. -/
def joined {α : Type} (separator : α) (groups : List (List α)) : List α :=
  [separator].intercalate (groups.filter (!·.isEmpty))

theorem joined_cons {α : Type} [DecidableEq α] (separator : α) (g : List α) (gs : List (List α)) :
    joined separator (g :: gs) =
      if g = [] then joined separator gs
      else if joined separator gs = [] then g else g ++ separator :: joined separator gs := by
  unfold joined
  cases g with
  | nil => simp
  | cons l ls =>
    rw [List.filter_cons_of_pos (by simp), if_neg (by simp)]
    cases kept : gs.filter (!·.isEmpty) with
    | nil => simp
    | cons g' gs' =>
      have filled : [separator].intercalate (g' :: gs') ≠ [] := by
        have mem : g' ∈ gs.filter (!·.isEmpty) := kept ▸ List.mem_cons_self
        cases g' with
        | nil => simp at mem
        | cons l' ls' => simp
      rw [if_neg filled, List.intercalate_cons_cons, List.append_assoc]
      rfl

theorem joined_singleton {α : Type} [DecidableEq α] (separator : α) (g : List α) :
    joined separator [g] = g := by
  have none : joined separator ([] : List (List α)) = [] := rfl
  rw [joined_cons, none, if_pos rfl]
  exact ite_eq_right_iff.2 Eq.symm

theorem filterMap_joined {α β : Type} [DecidableEq α] {separator : α} {f : α → Option β}
    (none : f separator = none) (gs : List (List α)) :
    (joined separator gs).filterMap f = gs.flatMap (·.filterMap f) := by
  induction gs with
  | nil => rfl
  | cons g gs ih =>
    rw [joined_cons, List.flatMap_cons, ← ih]
    split
    · rename_i empty
      rw [empty, List.filterMap_nil, List.nil_append]
    split
    · rename_i last
      rw [last, List.filterMap_nil, List.append_nil]
    · rw [List.filterMap_append, List.filterMap_cons_none none]

theorem spaced_cons (g : List Line) (gs : List (List Line)) :
    spaced (g :: gs) =
      if g = [] then spaced gs else if spaced gs = [] then g else g ++ .blank :: spaced gs :=
  joined_cons Line.blank g gs

theorem subset_spaced {g : List Line} {gs : List (List Line)} (h : g ∈ gs) : g ⊆ spaced gs := by
  induction gs with
  | nil => exact nomatch h
  | cons g' gs ih =>
    rw [spaced_cons]
    intro l hl
    rcases List.mem_cons.1 h with rfl | h
    · rw [if_neg (List.ne_nil_of_mem hl)]
      split
      · exact hl
      · exact List.mem_append_left _ hl
    · have later := ih h hl
      split
      · exact later
      · rw [if_neg (List.ne_nil_of_mem later)]
        exact List.mem_append_right _ (List.mem_cons_of_mem _ later)

theorem forall_mem_spaced {P : Line → Prop} (blank : P .blank) {gs : List (List Line)} :
    (∀ l ∈ spaced gs, P l) ↔ ∀ g ∈ gs, ∀ l ∈ g, P l := by
  induction gs with
  | nil => simp [spaced]
  | cons g gs ih =>
    rw [List.forall_mem_cons, ← ih, spaced_cons]
    split
    · simp_all
    split
    · simp_all
    · rw [List.forall_mem_append, List.forall_mem_cons]
      simp only [blank, true_and]

theorem forall_mem_block {P : String → Prop} {opening closing : String} {body : List Line} :
    (∀ l ∈ block opening body closing, P l.text) ↔
      P opening ∧ (∀ l ∈ body, P l.text) ∧ P closing := by
  rw [block, List.forall_mem_append, List.forall_mem_cons, List.forall_mem_map,
    List.forall_mem_singleton, and_assoc]
  rfl

/-- The text of each line stays on its line. -/
def Neat (ls : List Line) : Prop := ∀ l ∈ ls, Unbroken l.text

instance (ls : List Line) : Decidable (Neat ls) :=
  List.decidableBAll (fun l : Line => Unbroken l.text) ls

@[simp] theorem neat_nil : Neat [] := fun _ hl => nomatch hl

@[simp] theorem neat_cons {l : Line} {ls : List Line} :
    Neat (l :: ls) ↔ Unbroken l.text ∧ Neat ls :=
  List.forall_mem_cons

@[simp] theorem neat_append {ls ls' : List Line} : Neat (ls ++ ls') ↔ Neat ls ∧ Neat ls' :=
  List.forall_mem_append

@[simp] theorem neat_map {α : Type} {f : α → Line} {xs : List α} :
    Neat (xs.map f) ↔ ∀ x ∈ xs, Unbroken (f x).text :=
  List.forall_mem_map

@[simp] theorem neat_flatMap {α : Type} {f : α → List Line} {xs : List α} :
    Neat (xs.flatMap f) ↔ ∀ x ∈ xs, Neat (f x) := by
  simp only [Neat, List.mem_flatMap]
  grind

@[simp] theorem neat_block {opening closing : String} {body : List Line} :
    Neat (block opening body closing) ↔ Unbroken opening ∧ Neat body ∧ Unbroken closing :=
  forall_mem_block

@[simp] theorem neat_spaced {gs : List (List Line)} :
    Neat (spaced gs) ↔ ∀ g ∈ gs, Neat g :=
  forall_mem_spaced (show Unbroken "" by decide)

theorem Neat.oneLine {ls : List Line} (h : Neat ls) : ∀ l ∈ ls, OneLine l.text :=
  fun l hl => (h l hl).oneLine

/-! ## Reading back -/

theorem toList_join (ts : List String) : (String.join ts).toList = ts.flatMap String.toList := by
  have behind : ∀ start : String, (ts.foldl (fun r s => r ++ s) start).toList =
      start.toList ++ ts.flatMap String.toList := by
    induction ts with
    | nil => simp
    | cons t ts ih => intro start; simp [ih]
  simpa [String.join] using behind ""

theorem not_mem_chars {l : Line} (h : Unbroken l.text) :
    ∀ c ∈ l.chars, c ≠ '\n' ∧ c ≠ '\r' := by
  intro c hc
  rcases Line.mem_chars hc with rfl | hc
  · decide
  · exact h c hc

/-- A line of code whose text has line feeds is several lines when printed. -/
theorem splitOn_lineFeed_print (ls : List Line) :
    (print ls).toList.splitOn '\n' = ls.flatMap (·.chars.splitOn '\n') ++ [[]] := by
  rw [print, toList_join, List.flatMap_map]
  induction ls with
  | nil => rfl
  | cons l ls ih =>
    rw [List.flatMap_cons, Line.toList_print, List.append_assoc, List.singleton_append,
      List.splitOn_append_cons_self, ih, List.flatMap_cons, List.append_assoc]

/-- Whether the texts of lines stay on their lines or not, what is read back are their pieces. -/
theorem linesOf_print_pieces (ls : List Line) :
    linesOf (print ls) =
      (ls.flatMap (·.chars.splitOn '\n')).map fun cs => .outer (.ofList (withoutReturn cs)) := by
  unfold linesOf
  simp only [splitOn_lineFeed_print, List.getLast?_concat, Option.getD_some, List.dropLast_concat]
  simp only [List.isEmpty_nil, if_true, List.append_nil, List.map_map]
  rfl

theorem linesOf_print_ne_nil {ls : List Line} (filled : ls ≠ []) : linesOf (print ls) ≠ [] := by
  obtain ⟨l, ls, rfl⟩ := List.exists_cons_of_ne_nil filled
  rw [linesOf_print_pieces, Ne, List.map_eq_nil_iff, List.flatMap_cons, List.append_eq_nil_iff]
  exact fun none => List.splitOnP_ne_nil _ _ none.1

theorem withoutReturn_chars {l : Line} (h : l.text.toList.getLast? ≠ some '\r') :
    withoutReturn l.chars = l.chars := by
  rw [withoutReturn, Line.getLast?_chars, if_neg h]

/-- Printed code is read back line by line if no text has a line feed or ends in a carriage
return. -/
theorem linesOf_print_of_oneLine {ls : List Line} (single : ∀ l ∈ ls, OneLine l.text)
    (trimmed : ∀ l ∈ ls, l.text.toList.getLast? ≠ some '\r') :
    linesOf (print ls) = ls.map Line.flat := by
  have whole : ls.flatMap (·.chars.splitOn '\n') = ls.map Line.chars := by
    rw [List.map_eq_flatMap, List.flatMap_def, List.flatMap_def]
    refine congrArg _ (List.map_congr_left fun l hl => List.splitOn_eq_singleton fun feed => ?_)
    exact single l hl ((Line.mem_chars feed).resolve_left (by decide))
  rw [linesOf_print_pieces, whole, List.map_map]
  refine List.map_congr_left fun l hl => ?_
  rw [Function.comp_apply, withoutReturn_chars (trimmed l hl)]
  rfl

/-- Printed code is read back line by line. -/
theorem linesOf_print {ls : List Line} (h : Neat ls) :
    linesOf (print ls) = ls.map Line.flat :=
  linesOf_print_of_oneLine h.oneLine fun l hl => (h l hl).getLast?_ne

end Source

end WireCodec
