import WireCodec.Proofs.ModuleText

/-!
# Names that code spells

The names that a text spells are read off its lines (`Source.namesOf`): comments and imports aside,
a name counts unless it stands behind a dot or a path separator, or in front of a single colon. A
line is cut at its breaks, so what it spells is put together from its pieces (`Source.Spells`), and
what lines spell from each line (`Source.SpellAll`).
-/

namespace WireCodec

/-- The native types. -/
def NativeType.all : List NativeType :=
  [bool, i8, i16, i32, i64, u16, u32, u64, f32, f64, text]

/-- The type names of the language and of the runtime crate that generated code may spell. -/
def typeNames : List String := reservedNames ++ NativeType.all.map (·.spelling)

namespace Source

/-! ## Reading names -/

/-- The character ends a path or a chain of members. -/
def isBreak (c : Char) : Bool := !(isNameChar c || c == '.' || c == ':')

/-- The name in front of a path or of a chain of members. A label, which a single colon ends, is
none. -/
def leading (chunk : List Char) : List Char :=
  if chunk.dropWhile isNameChar = [':'] then [] else chunk.takeWhile isNameChar

/-- The names in front of the paths and chains of a line; some of them are empty. -/
def heads (cs : List Char) : List (List Char) := (cs.splitOnP isBreak).map leading

/-- The line is neither a comment nor an import. -/
def isCode (cs : List Char) : Bool := !("//".toList.isPrefixOf cs || "use ".toList.isPrefixOf cs)

/-- The names that a line spells. -/
def lineNames (cs : List Char) : List String :=
  let code := cs.dropWhile (· == ' ')
  if isCode code then (heads code).map .ofList else []

/-- The names that a text spells. -/
def namesOf (text : String) : List String :=
  ((linesOf text).flatMap fun l => lineNames l.chars).filter (· ≠ "")

/-! ## Pieces of a line -/

/-- Of the type names the piece spells just those given. -/
def Spells (cs : List Char) (names : List String) : Prop :=
  ∀ w ∈ typeNames, w.toList ∈ heads cs ↔ w ∈ names

instance (cs : List Char) (names : List String) : Decidable (Spells cs names) :=
  List.decidableBAll (fun w : String => w.toList ∈ heads cs ↔ w ∈ names) typeNames

theorem not_isBreak_of_isWord {x : String} (h : IsWord x) :
    ∀ c ∈ x.toList, isBreak c = false := by
  intro c hc
  simp [isBreak, h c hc]

section Chunks

variable {xs cs chunk : List Char} {chunks : List (List Char)}

theorem exists_splitOnP_eq_cons (cs : List Char) :
    ∃ chunk chunks, cs.splitOnP isBreak = chunk :: chunks := by
  cases split : cs.splitOnP isBreak with
  | nil => exact absurd split (List.splitOnP_ne_nil _ _)
  | cons chunk chunks => exact ⟨chunk, chunks, rfl⟩

theorem splitOnP_append (h : ∀ c ∈ xs, isBreak c = false)
    (split : cs.splitOnP isBreak = chunk :: chunks) :
    (xs ++ cs).splitOnP isBreak = (xs ++ chunk) :: chunks := by
  induction xs with
  | nil => exact split
  | cons x xs ih =>
    obtain ⟨first, others⟩ := List.forall_mem_cons.1 h
    rw [List.cons_append, List.splitOnP_cons_eq_if_modifyHead, first, ih others]
    rfl

theorem splitOnP_break {c : Char} (h : isBreak c) :
    (c :: cs).splitOnP isBreak = [] :: cs.splitOnP isBreak := by
  rw [List.splitOnP_cons_eq_if_modifyHead, if_pos h]

/-- What follows does not go on with a name. -/
def startsApart (cs : List Char) : Bool := cs.head?.all (!isNameChar ·)

theorem leading_eq_nil (apart : startsApart chunk) : leading chunk = [] := by
  unfold leading
  split_ifs
  · rfl
  · cases chunk with
    | nil => rfl
    | cons c chunk => exact List.takeWhile_cons_of_neg (by simpa [startsApart] using apart)

/-- A dot ends the name in front whatever follows. -/
theorem leading_append (dot : (xs.dropWhile isNameChar).head? = some '.') (cs : List Char) :
    leading (xs ++ cs) = leading xs := by
  obtain ⟨members, behind⟩ := List.head?_eq_some_iff.1 dot
  have split : xs = xs.takeWhile isNameChar ++ '.' :: members := by
    rw [← behind, List.takeWhile_append_dropWhile]
  have name : ∀ c ∈ xs.takeWhile isNameChar, isNameChar c := List.all_eq_true.1 List.all_takeWhile
  generalize xs.takeWhile isNameChar = owner at split name
  subst split
  simp only [leading, List.append_assoc, List.cons_append, List.dropWhile_append_of_pos name,
    List.takeWhile_append_of_pos name]
  rfl

/-- The first chunk of a line starts as the line does. -/
theorem startsApart_chunk (apart : startsApart cs) (split : cs.splitOnP isBreak = chunk :: chunks) :
    startsApart chunk := by
  cases cs with
  | nil => cases split; rfl
  | cons c cs =>
    by_cases sep : isBreak c
    · rw [splitOnP_break sep] at split
      cases split
      rfl
    · obtain ⟨rest, more, split'⟩ := exists_splitOnP_eq_cons cs
      have single : ∀ d ∈ [c], isBreak d = false := by simpa using sep
      cases (splitOnP_append single split').symm.trans split
      exact apart

end Chunks

/-- What follows ends a name and makes it no label. -/
def endsName (cs : List Char) : Bool :=
  startsApart cs && (cs.splitOnP isBreak).head? != some [':']

section Heads

variable {w cs : List Char} (filled : w ≠ [])

include filled

/-- What stands in front of a line may change its first head, and nothing else. -/
theorem mem_heads_append {xs head : List Char} (joined : ∀ c ∈ xs, isBreak c = false)
    (apart : startsApart cs)
    (first : ∀ chunk, (cs.splitOnP isBreak).head? = some chunk → startsApart chunk →
      leading (xs ++ chunk) = head) :
    w ∈ heads (xs ++ cs) ↔ w = head ∨ w ∈ heads cs := by
  obtain ⟨chunk, chunks, split⟩ := exists_splitOnP_eq_cons cs
  have apart := startsApart_chunk apart split
  have none := leading_eq_nil apart
  rw [heads, heads, splitOnP_append joined split, split, List.map_cons, List.map_cons, none,
    first chunk (by rw [split]; rfl) apart]
  simp [filled]

/-- At a break a line is read afresh. -/
theorem mem_heads_break {xs : List Char}
    (cut : xs.getLast?.any isBreak ∨ cs.head?.any isBreak) :
    w ∈ heads (xs ++ cs) ↔ w ∈ heads xs ∨ w ∈ heads cs := by
  have single {c : Char} (sep : isBreak c) (xs cs : List Char) :
      heads (xs ++ c :: cs) = heads xs ++ heads cs := by
    rw [heads, List.splitOnP_append_cons _ _ sep, List.map_append]
    rfl
  have none : heads [] = [[]] := rfl
  rcases cut with cut | cut
  · obtain ⟨c, last, sep⟩ := (Option.any_eq_true _ _).1 cut
    obtain ⟨xs, rfl⟩ := List.getLast?_eq_some_iff.1 last
    rw [List.append_assoc, List.singleton_append, single sep, single sep, none]
    simp [filled]
  · obtain ⟨c, first, sep⟩ := (Option.any_eq_true _ _).1 cut
    obtain ⟨cs, rfl⟩ := List.head?_eq_some_iff.1 first
    rw [single sep, ← List.nil_append (c :: cs), single sep, none]
    simp [filled]

/-- A name that is ended is spelled. -/
theorem mem_heads_name {x : String} (h : IsWord x) (ends : endsName cs) :
    w ∈ heads (x.toList ++ cs) ↔ w = x.toList ∨ w ∈ heads cs := by
  obtain ⟨apart, unlabelled⟩ := Bool.and_eq_true_iff.1 ends
  refine mem_heads_append filled (not_isBreak_of_isWord h) apart fun chunk first apart => ?_
  have other : chunk ≠ [':'] := by
    rintro rfl
    simp [first] at unlabelled
  have none : chunk.takeWhile isNameChar = [] ∧ chunk.dropWhile isNameChar = chunk := by
    cases chunk with
    | nil => exact ⟨rfl, rfl⟩
    | cons c chunk => simp_all [startsApart]
  rw [leading, List.dropWhile_append_of_pos h, List.takeWhile_append_of_pos h, none.1, none.2,
    if_neg other, List.append_nil]

/-- A label is not spelled. -/
theorem mem_heads_label {x : String} (h : IsWord x) :
    w ∈ heads (x.toList ++ (": ".toList ++ cs)) ↔ w ∈ heads cs := by
  have none : leading (x.toList ++ [':']) = [] := if_pos (List.dropWhile_append_of_pos h)
  have behind : heads (": ".toList ++ cs) = [] :: heads cs := rfl
  rw [mem_heads_append filled (not_isBreak_of_isWord h) rfl fun chunk first _ => by
    cases first; exact none, behind]
  simp [filled]

/-- A member is not spelled, only what it is a member of. -/
theorem mem_heads_member {owner : List Char} (joined : owner.all (!isBreak ·))
    (dot : (owner.dropWhile isNameChar).head? = some '.') {x : String} (h : IsWord x)
    (apart : startsApart cs) :
    w ∈ heads (owner ++ (x.toList ++ cs)) ↔ w ∈ heads owner ∨ w ∈ heads cs := by
  have joined : ∀ c ∈ owner, isBreak c = false := by simpa using List.all_eq_true.1 joined
  have alone : heads owner = [leading owner] := by
    rw [heads, List.splitOnP_eq_singleton joined, List.map_singleton]
  rw [← List.append_assoc, alone, List.mem_singleton]
  refine mem_heads_append filled ?_ apart fun chunk _ _ => ?_
  · exact List.forall_mem_append.2 ⟨joined, (not_isBreak_of_isWord h)⟩
  · rw [List.append_assoc, leading_append dot]

end Heads

theorem toList_ne_nil_of_mem : ∀ w ∈ typeNames, w.toList ≠ [] := by decide

/-- The name starts with a digit, or it has neither capitals nor digits and is not `bool`. -/
def isSmall (head : List Char) : Bool :=
  head.head?.any (·.isDigit) ||
    head.all (fun c => !(c.isUpper || c.isDigit)) && head != ['b', 'o', 'o', 'l']

theorem not_isSmall_of_mem : ∀ w ∈ typeNames, isSmall w.toList = false := by decide

/-- The names in front are small or among those given, and those given are there. -/
def isLiteral (names : List String) (cs : List Char) : Bool :=
  (heads cs).all (fun head => isSmall head || names.any (·.toList == head)) &&
    names.all fun name => (heads cs).contains name.toList

/-- The names in front are small. -/
def isPlain (cs : List Char) : Bool := (heads cs).all isSmall

theorem not_mem_heads_of_isPlain {cs : List Char} (plain : isPlain cs) :
    ∀ w ∈ typeNames, w.toList ∉ heads cs := by
  intro w hw mem
  exact Bool.eq_false_iff.1 (not_isSmall_of_mem w hw) (List.all_eq_true.1 plain _ mem)

namespace Spells

variable {cs : List Char} {names : List String}

theorem congr {names' : List String} (h : Spells cs names)
    (same : ∀ w ∈ typeNames, w ∈ names ↔ w ∈ names') : Spells cs names' :=
  fun w hw => (h w hw).trans (same w hw)

theorem nil : Spells [] [] := by decide

theorem append {xs : List Char} {own : List String} (h : Spells xs own)
    (cut : xs.getLast?.any isBreak ∨ cs.head?.any isBreak) (h' : Spells cs names) :
    Spells (xs ++ cs) (own ++ names) := by
  intro w hw
  rw [mem_heads_break (toList_ne_nil_of_mem w hw) cut, h w hw, h' w hw, List.mem_append]

/-- A piece that is given in full. -/
theorem literal (text : String) {xs : List Char} (chars : text = .ofList xs)
    (just : isLiteral names xs) : Spells text.toList names := by
  obtain ⟨given, found⟩ := Bool.and_eq_true_iff.1 just
  rw [chars, String.toList_ofList]
  refine fun w hw => ⟨fun mem => ?_, fun mem => ?_⟩
  · have small := not_isSmall_of_mem w hw
    obtain ⟨name, own, same⟩ : ∃ name ∈ names, name.toList = w.toList := by
      simpa [small] using List.all_eq_true.1 given _ mem
    rwa [← String.toList_inj.1 same]
  · simpa using List.all_eq_true.1 found w mem

/-- A piece without type names. -/
theorem plain (text : String) {xs : List Char} (chars : text = .ofList xs) (plain : isPlain xs) :
    Spells text.toList [] := by
  rw [chars, String.toList_ofList]
  exact fun w hw => iff_of_false (not_mem_heads_of_isPlain plain w hw) List.not_mem_nil

/-- A piece without type names that a break ends. -/
theorem after (h : Spells cs names) (text : String) {xs : List Char} (chars : text = .ofList xs)
    (ends : (isPlain xs && xs.getLast?.any isBreak) = true) :
    Spells (text.toList ++ cs) names := by
  obtain ⟨isPlain, ends⟩ := Bool.and_eq_true_iff.1 ends
  have last : text.toList.getLast?.any isBreak := by rwa [chars, String.toList_ofList]
  exact (plain text chars isPlain).append (.inl last) h

/-- A piece with a break behind it. -/
theorem before {text : String} {own : List String} (h : Spells text.toList own)
    (starts : cs.head?.any isBreak) (h' : Spells cs names) :
    Spells (text.toList ++ cs) (own ++ names) :=
  h.append (.inr starts) h'

theorem name {x : String} (hx : IsWord x) (ends : endsName cs) (h : Spells cs names) :
    Spells (x.toList ++ cs) (x :: names) := by
  intro w hw
  rw [mem_heads_name (toList_ne_nil_of_mem w hw) hx ends, h w hw, String.toList_inj,
    List.mem_cons]

theorem label {x : String} (hx : IsWord x) (h : Spells cs names) :
    Spells (x.toList ++ (": ".toList ++ cs)) names := by
  intro w hw
  rw [mem_heads_label (toList_ne_nil_of_mem w hw) hx, h w hw]

/-- A member of something that is no type. -/
theorem member (h : Spells cs names) {x : String} (hx : IsWord x) (apart : startsApart cs)
    (owner : String) {xs : List Char} (chars : owner = .ofList xs)
    (plain : (xs.all (!isBreak ·) && (xs.dropWhile isNameChar).head? == some '.' && isPlain xs)) :
    Spells (owner.toList ++ (x.toList ++ cs)) names := by
  simp only [Bool.and_eq_true, beq_iff_eq] at plain
  obtain ⟨⟨joined, dot⟩, plain⟩ := plain
  intro w hw
  rw [chars, String.toList_ofList,
    mem_heads_member (toList_ne_nil_of_mem w hw) joined dot hx apart, h w hw,
    or_iff_right (not_mem_heads_of_isPlain plain w hw)]

/-- A member of the message itself. -/
theorem field (h : Spells cs names) {x : String} (hx : IsWord x) (apart : startsApart cs) :
    Spells ("self.".toList ++ (x.toList ++ cs)) names :=
  h.member hx apart "self." rfl rfl

end Spells

/-! ## Lines -/

/-- Of the type names the lines spell just those given. -/
def SpellAll (ls : List Line) (names : List String) : Prop :=
  ∀ w ∈ typeNames, w ∈ ls.flatMap (fun l => lineNames l.text.toList) ↔ w ∈ names

instance (ls : List Line) (names : List String) : Decidable (SpellAll ls names) :=
  inferInstanceAs (Decidable (∀ w ∈ typeNames,
    w ∈ ls.flatMap (fun l => lineNames l.text.toList) ↔ w ∈ names))

/-- The line is code and not indented. -/
def startsCode (cs : List Char) : Bool := !" ".toList.isPrefixOf cs && isCode cs

theorem lineNames_eq_of_startsCode {cs : List Char} (h : startsCode cs) :
    lineNames cs = (heads cs).map .ofList := by
  obtain ⟨flush, code⟩ := Bool.and_eq_true_iff.1 h
  have start : cs.dropWhile (· == ' ') = cs := by
    cases cs with
    | nil => rfl
    | cons c cs =>
      refine List.dropWhile_cons_of_neg fun blank => ?_
      obtain rfl := eq_of_beq blank
      exact nomatch flush
  rw [lineNames, start]
  exact if_pos code

theorem lineNames_chars (l : Line) : lineNames l.chars = lineNames l.text.toList := by
  have code : l.chars.dropWhile (· == ' ') = l.text.toList.dropWhile (· == ' ') := by
    unfold Line.chars Line.shift
    split_ifs with empty
    · rw [empty]
    · exact List.dropWhile_append_of_pos fun c hc => by simp [List.eq_of_mem_replicate hc]
  unfold lineNames
  rw [code]

theorem namesOf_print {ls : List Line} (neat : Neat ls) {w : String} (filled : w ≠ "") :
    w ∈ namesOf (print ls) ↔ w ∈ ls.flatMap fun l => lineNames l.text.toList := by
  rw [namesOf, linesOf_print neat, List.mem_filter, List.flatMap_map]
  simp [lineNames_chars, filled]

/-- A line that starts with a label is code. -/
theorem startsCode_label {x : String} (hx : IsWord x) (cs : List Char) :
    startsCode (x.toList ++ (": ".toList ++ cs)) := by
  have label : (x.toList ++ (": ".toList ++ cs)).dropWhile isNameChar = ": ".toList ++ cs :=
    List.dropWhile_append_of_pos hx
  -- behind the name in front there is a colon
  have other {start : List Char}
      (h : ∀ rest, ((start ++ rest).dropWhile isNameChar).head? ≠ some ':') :
      start.isPrefixOf (x.toList ++ (": ".toList ++ cs)) = false := by
    rw [Bool.eq_false_iff, Ne, List.isPrefixOf_iff_prefix]
    rintro ⟨rest, line⟩
    apply h rest
    rw [line, label]
    rfl
  have blank := @other " ".toList fun _ => nofun
  have comment := @other "//".toList fun _ => nofun
  have use := @other "use ".toList fun _ => nofun
  simp only [startsCode, isCode, blank, comment, use]
  rfl

/-- A line of code is put together from pieces. -/
theorem Spells.line {cs : List Char} {names : List String} (h : Spells cs names) {text : String}
    (pieces : text.toList = cs) (code : startsCode cs) : SpellAll [.outer text] names := by
  intro w hw
  rw [List.flatMap_singleton]
  show w ∈ lineNames text.toList ↔ w ∈ names
  rw [pieces, lineNames_eq_of_startsCode code, ← h w hw, List.mem_map]
  constructor
  · rintro ⟨xs, mem, rfl⟩
    rwa [String.toList_ofList]
  · intro mem
    exact ⟨_, mem, String.ofList_toList⟩

namespace SpellAll

variable {ls ls' : List Line} {names names' : List String}

theorem congr (h : SpellAll ls names) (same : ∀ w ∈ typeNames, w ∈ names ↔ w ∈ names') :
    SpellAll ls names' :=
  fun w hw => (h w hw).trans (same w hw)

theorem nil : SpellAll [] [] := fun _ _ => .rfl

theorem append (h : SpellAll ls names) (h' : SpellAll ls' names') :
    SpellAll (ls ++ ls') (names ++ names') := by
  intro w hw
  rw [List.flatMap_append, List.mem_append, h w hw, h' w hw, List.mem_append]

theorem cons {l : Line} (h : SpellAll [l] names) (h' : SpellAll ls names') :
    SpellAll (l :: ls) (names ++ names') :=
  h.append h'

/-- A line of code that is given in full. -/
theorem literal (text : String) {xs : List Char} (chars : text = .ofList xs)
    (just : (startsCode xs && isLiteral names xs) = true) : SpellAll [.outer text] names := by
  obtain ⟨code, just⟩ := Bool.and_eq_true_iff.1 just
  have same : text.toList = xs := by rw [chars, String.toList_ofList]
  exact (Spells.literal text chars just).line rfl (by rwa [same])

/-- A comment or an import. -/
theorem silent {text : String} (h : lineNames text.toList = []) : SpellAll [.outer text] [] := by
  intro w _
  rw [List.flatMap_singleton]
  show w ∈ lineNames text.toList ↔ w ∈ []
  rw [h]

theorem deeper (h : SpellAll ls names) : SpellAll (ls.map Line.deeper) names := by
  intro w hw
  rw [List.flatMap_map]
  exact h w hw

theorem flatMap {α : Type} {f : α → List Line} {g : α → List String} {xs : List α}
    (h : ∀ x ∈ xs, SpellAll (f x) (g x)) : SpellAll (xs.flatMap f) (xs.flatMap g) := by
  induction xs with
  | nil => exact nil
  | cons x xs ih =>
    obtain ⟨first, others⟩ := List.forall_mem_cons.1 h
    rw [List.flatMap_cons, List.flatMap_cons]
    exact first.append (ih others)

theorem map {α : Type} {f : α → Line} {g : α → List String} {xs : List α}
    (h : ∀ x ∈ xs, SpellAll [f x] (g x)) : SpellAll (xs.map f) (xs.flatMap g) := by
  rw [List.map_eq_flatMap]
  exact flatMap h

theorem block {opening closing : String} {opened closed : List String}
    (first : SpellAll [.outer opening] opened) (h : SpellAll ls names)
    (last : SpellAll [.outer closing] closed) :
    SpellAll (block opening ls closing) (opened ++ names ++ closed) :=
  (first.cons h.deeper).append last

/-- The blank lines between groups spell nothing. -/
theorem spaced {gs : List (List Line)} (h : SpellAll gs.flatten names) :
    SpellAll (spaced gs) names := by
  refine fun w hw => Iff.trans ?_ (h w hw)
  have filled : w ≠ "" := fun empty => toList_ne_nil_of_mem w hw (by rw [empty]; rfl)
  have blank : w ∉ lineNames Line.blank.text.toList := by
    show w ∉ [""]
    simpa using filled
  clear h
  induction gs with
  | nil => rfl
  | cons g gs ih =>
    rw [List.flatten_cons, List.flatMap_append, List.mem_append]
    refine Iff.trans ?_ (or_congr_right ih)
    rw [spaced_cons]
    split_ifs with empty last
    · simp [empty]
    · simp [last]
    · rw [List.flatMap_append, List.flatMap_cons, List.mem_append, List.mem_append,
        or_iff_right blank]

end SpellAll

end Source

end WireCodec
