import Mathlib.Data.List.Chain
import WireCodec.Proofs.Words

/-!
# Word breaks

Snake case keeps the letters and digits of a name in order and lower-cases them. What it adds are
single underscores: between two letters or digits that the name holds apart, or at the second of
which a new word starts (`Breaks`). These rules leave no choice (`IsSnakeCase`), and a text that is
in snake case already follows them for itself.
-/

namespace WireCodec

/-! ## Rules -/

/-- The ASCII letters and digits of a text. -/
def letters (cs : List Char) : List Char := cs.filter Char.isAlphanum

/-- A word ends between the letters or digits `b` and `c`: the name has something else in between,
or a new word starts at `c`, an upper-case letter. It does so right behind a lower-case letter or a
digit, and behind an upper-case letter if a lower-case one is next. -/
def Breaks (b : Char) (gap : List Char) (c : Char) (next : Option Char) : Prop :=
  gap ≠ [] ∨ c.isUpper ∧ (b.isLower ∨ b.isDigit ∨ b.isUpper ∧ next.any Char.isLower)

instance (b : Char) (gap : List Char) (c : Char) (next : Option Char) :
    Decidable (Breaks b gap c next) :=
  inferInstanceAs (Decidable (_ ∨ _))

/-- The text is the snake case of the name. -/
structure IsSnakeCase (name text : List Char) : Prop where
  /-- No letter or digit is lost or invented. -/
  kept : letters text = (letters name).map Char.toLower
  others : ∀ c ∈ text, c.isAlphanum ∨ c = '_'
  head : text.head? ≠ some '_'
  last : text.getLast? ≠ some '_'
  single : text.IsChain fun b c => b = '_' → c ≠ '_'
  /-- Two letters or digits of the name without a third in between have an underscore in between
  if a word ends there, and nothing otherwise. -/
  joint {front gap back : List Char} {b c : Char} (parts : name = front ++ b :: (gap ++ c :: back))
    (before : b.isAlphanum) (none : letters gap = []) (behind : c.isAlphanum) :
    ∃ x y, letters x = (letters front).map Char.toLower ∧
      text = x ++ b.toLower ::
        ((if Breaks b gap c back.head? then ['_'] else []) ++ c.toLower :: y)

/-! ## Letters -/

section Letters

variable {c : Char} {xs ys : List Char}

@[simp] theorem letters_nil : letters [] = [] := rfl

@[simp] theorem letters_append : letters (xs ++ ys) = letters xs ++ letters ys :=
  List.filter_append xs ys

theorem letters_cons (letter : c.isAlphanum) : letters (c :: xs) = c :: letters xs :=
  List.filter_cons_of_pos letter

theorem letters_cons_other (other : ¬ c.isAlphanum) : letters (c :: xs) = letters xs :=
  List.filter_cons_of_neg other

theorem letters_eq_nil_iff : letters xs = [] ↔ ∀ c ∈ xs, ¬ c.isAlphanum := List.filter_eq_nil_iff

theorem isAlphanum_toLower (letter : c.isAlphanum) : c.toLower.isAlphanum := by
  refine Bool.or_eq_true_iff.2 ((isLower_or_isDigit_toLower letter).imp_left fun lower => ?_)
  exact Bool.or_eq_true_iff.2 (.inr lower)

theorem ne_underscore (letter : c.isAlphanum) : c ≠ '_' := by
  rintro rfl
  exact absurd letter (by decide)

/-- Two texts around a letter or digit have the same front if these have the same letters. -/
theorem front_eq_of_letters {x x' y y' : List Char} {a a' : Char}
    (same : x ++ a :: y = x' ++ a' :: y') (letter : a.isAlphanum) (letter' : a'.isAlphanum)
    (fronts : letters x = letters x') : x = x' ∧ y = y' := by
  have longer : ∀ {x z : List Char} {a : Char}, a.isAlphanum →
      letters (x ++ a :: z) ≠ letters x := by
    intro x z a letter
    rw [letters_append, letters_cons letter]
    simp
  rcases List.append_eq_append_iff.1 same with ⟨z, rfl, rest⟩ | ⟨z, rfl, rest⟩ <;>
    rcases z with _ | ⟨d, z⟩
  · exact ⟨(List.append_nil x).symm, List.tail_eq_of_cons_eq rest⟩
  · obtain rfl : a = d := List.head_eq_of_cons_eq rest
    exact absurd fronts.symm (longer letter)
  · exact ⟨List.append_nil x', (List.tail_eq_of_cons_eq rest).symm⟩
  · obtain rfl : a' = d := List.head_eq_of_cons_eq rest
    exact absurd fronts (longer letter')

/-- Where the lower-cased letters of a name are split, so is the name. -/
theorem exists_of_map_letters {name u v : List Char} {d e : Char}
    (split : (letters name).map Char.toLower = u ++ d :: e :: v) :
    ∃ front b gap c back, name = front ++ b :: (gap ++ c :: back) ∧ b.isAlphanum ∧
      letters gap = [] ∧ c.isAlphanum ∧ (letters front).map Char.toLower = u ∧ b.toLower = d ∧
      c.toLower = e := by
  obtain ⟨l₁, l₂, all, rfl, rest⟩ := List.map_eq_append_iff.1 split
  obtain ⟨b, l₃, rfl, lower, rest⟩ := List.map_eq_cons_iff.1 rest
  obtain ⟨c, l₄, rfl, lower', -⟩ := List.map_eq_cons_iff.1 rest
  obtain ⟨front, behind, rfl, rfl, second⟩ := List.filter_eq_append_iff.1 all
  obtain ⟨skipped, behind, rfl, none, before, second⟩ := List.filter_eq_cons_iff.1 second
  obtain ⟨gap, back, rfl, none', letter, -⟩ := List.filter_eq_cons_iff.1 second
  refine ⟨front ++ skipped, b, gap, c, back, by simp, before, letters_eq_nil_iff.2 none', letter,
    ?_, lower, lower'⟩
  rw [letters_append, letters_eq_nil_iff.2 none, List.append_nil]
  rfl

end Letters

/-! ## The text -/

section Text

variable {before : Option Char} {started : Bool} {c : Char} {cs : List Char}

theorem snakeCaseFrom_other (other : ¬ c.isAlphanum) :
    snakeCaseFrom before started (c :: cs) = snakeCaseFrom (some c) started cs := by
  rw [snakeCaseFrom.eq_def]
  exact if_neg other

/-- A letter or digit is spelled behind at most one underscore, and behind none if it is the first. -/
theorem exists_snakeCaseFrom_letter (letter : c.isAlphanum) (before : Option Char) (started : Bool)
    (cs : List Char) : ∃ sep, letters sep = [] ∧
      (sep = [] ∨ sep = ['_'] ∧ (started ∨ ∃ b ∈ before, b.isAlphanum)) ∧
      snakeCaseFrom before started (c :: cs) =
        sep ++ c.toLower :: snakeCaseFrom (some c) true cs := by
  cases before with
  | none =>
    refine ⟨[], rfl, .inl rfl, ?_⟩
    rw [snakeCaseFrom, if_pos letter]
    rfl
  | some b =>
    rw [snakeCaseFrom, if_pos letter]
    by_cases apart : (if b.isAlphanum then startsWord b c cs.head? else started) = true
    · refine ⟨['_'], rfl, .inr ⟨rfl, ?_⟩, if_pos apart⟩
      split at apart
      next word => exact .inr ⟨b, rfl, word⟩
      next => exact .inl apart
    · exact ⟨[], rfl, .inl rfl, if_neg apart⟩

/-- Behind a gap a letter or digit is spelled behind an underscore. -/
theorem snakeCaseFrom_gap {g : Char} {gap : List Char} (other : ¬ g.isAlphanum)
    (none : letters gap = []) (letter : c.isAlphanum) :
    snakeCaseFrom (some g) true (gap ++ c :: cs) =
      '_' :: c.toLower :: snakeCaseFrom (some c) true cs := by
  induction gap generalizing g with
  | nil =>
    rw [List.nil_append, snakeCaseFrom, if_pos letter]
    simp [other]
  | cons d gap ih =>
    obtain ⟨other', none⟩ := List.forall_mem_cons.1 (letters_eq_nil_iff.1 none)
    rw [List.cons_append, snakeCaseFrom_other other']
    exact ih other' (letters_eq_nil_iff.2 none)

theorem snakeCaseFrom_joint {b : Char} {gap : List Char} (before : b.isAlphanum)
    (none : letters gap = []) (letter : c.isAlphanum) :
    snakeCaseFrom (some b) true (gap ++ c :: cs) =
      (if Breaks b gap c cs.head? then ['_'] else []) ++
        c.toLower :: snakeCaseFrom (some c) true cs := by
  cases gap with
  | nil =>
    have starts : startsWord b c cs.head? = true ↔ Breaks b [] c cs.head? := by
      simp [startsWord, Breaks, or_assoc]
    rw [List.nil_append, snakeCaseFrom, if_pos letter]
    simp only [before, if_true, starts]
    split <;> rfl
  | cons g gap =>
    obtain ⟨other, none⟩ := List.forall_mem_cons.1 (letters_eq_nil_iff.1 none)
    have breaks : Breaks b (g :: gap) c cs.head? := .inl (List.cons_ne_nil g gap)
    rw [List.cons_append, snakeCaseFrom_other other,
      snakeCaseFrom_gap other (letters_eq_nil_iff.2 none) letter, if_pos breaks]
    rfl

theorem letters_snakeCaseFrom (before : Option Char) (started : Bool) (cs : List Char) :
    letters (snakeCaseFrom before started cs) = (letters cs).map Char.toLower := by
  induction cs generalizing before started with
  | nil => rfl
  | cons c cs ih =>
    by_cases letter : c.isAlphanum
    · obtain ⟨sep, none, -, spelled⟩ := exists_snakeCaseFrom_letter letter before started cs
      rw [spelled, letters_append, none, List.nil_append, letters_cons (isAlphanum_toLower letter),
        ih, letters_cons letter, List.map_cons]
    · rw [snakeCaseFrom_other letter, ih, letters_cons_other letter]

/-- A front of a name is spelled for itself, but for what decides on the word behind it. -/
theorem exists_snakeCaseFrom_append (before : Option Char) (started : Bool) (xs ys : List Char) :
    ∃ x before' started', letters x = (letters xs).map Char.toLower ∧
      snakeCaseFrom before started (xs ++ ys) = x ++ snakeCaseFrom before' started' ys := by
  induction xs generalizing before started with
  | nil => exact ⟨[], before, started, rfl, rfl⟩
  | cons c xs ih =>
    by_cases letter : c.isAlphanum
    · obtain ⟨sep, none, -, spelled⟩ :=
        exists_snakeCaseFrom_letter letter before started (xs ++ ys)
      obtain ⟨x, before', started', kept, rest⟩ := ih (some c) true
      refine ⟨sep ++ c.toLower :: x, before', started', ?_, ?_⟩
      · rw [letters_append, none, List.nil_append, letters_cons (isAlphanum_toLower letter), kept,
          letters_cons letter, List.map_cons]
      · rw [List.cons_append, spelled, rest, List.append_assoc, List.cons_append]
    · rw [List.cons_append, snakeCaseFrom_other letter, letters_cons_other letter]
      exact ih (some c) started

theorem head?_snakeCaseFrom (fresh : ∀ b ∈ before, ¬ b.isAlphanum) :
    (snakeCaseFrom before false cs).head? ≠ some '_' := by
  induction cs generalizing before with
  | nil => exact nofun
  | cons c cs ih =>
    by_cases letter : c.isAlphanum
    · obtain ⟨sep, -, rfl | ⟨-, reason⟩, spelled⟩ :=
        exists_snakeCaseFrom_letter letter before false cs
      · rw [spelled]
        simpa using ne_underscore (isAlphanum_toLower letter)
      · rcases reason with ⟨⟨⟩⟩ | ⟨b, mem, word⟩
        exact absurd word (fresh b mem)
    · rw [snakeCaseFrom_other letter]
      exact ih (by simpa using letter)

theorem isAlphanum_of_getLast?_snakeCaseFrom :
    ∀ d ∈ (snakeCaseFrom before started cs).getLast?, d.isAlphanum := by
  induction cs generalizing before started with
  | nil => exact nofun
  | cons c cs ih =>
    by_cases letter : c.isAlphanum
    · obtain ⟨sep, -, -, spelled⟩ := exists_snakeCaseFrom_letter letter before started cs
      rw [spelled, List.getLast?_append_of_ne_nil _ (List.cons_ne_nil _ _)]
      rcases rest : snakeCaseFrom (some c) true cs with _ | ⟨d, ds⟩
      · simpa using isAlphanum_toLower letter
      · rw [List.getLast?_cons_cons, ← rest]
        exact ih
    · rw [snakeCaseFrom_other letter]
      exact ih

theorem isChain_snakeCaseFrom :
    (snakeCaseFrom before started cs).IsChain fun b c => b = '_' → c ≠ '_' := by
  induction cs generalizing before started with
  | nil => exact .nil
  | cons c cs ih =>
    by_cases letter : c.isAlphanum
    · obtain ⟨sep, -, small, spelled⟩ := exists_snakeCaseFrom_letter letter before started cs
      have lower := ne_underscore (isAlphanum_toLower letter)
      have word : (c.toLower :: snakeCaseFrom (some c) true cs).IsChain
          fun b c => b = '_' → c ≠ '_' :=
        List.isChain_cons.2 ⟨fun _ _ same => absurd same lower, ih⟩
      rw [spelled]
      rcases small with rfl | ⟨rfl, -⟩
      · exact word
      · exact List.isChain_cons_cons.2 ⟨fun _ => lower, word⟩
    · rw [snakeCaseFrom_other letter]
      exact ih

end Text

theorem isSnakeCase_snakeCase (name : String) :
    IsSnakeCase name.toList (snakeCase name).toList := by
  have text : (snakeCase name).toList = snakeCaseFrom none false name.toList :=
    String.toList_ofList
  refine { kept := ?_, others := ?_, head := ?_, last := ?_, single := ?_, joint := ?_ }
  · rw [text, letters_snakeCaseFrom]
  · exact forall_mem_snakeCase (.inr rfl) (fun _ letter => .inl (isAlphanum_toLower letter)) name
  · rw [text]
    exact head?_snakeCaseFrom nofun
  · rw [text]
    exact fun same => absurd (isAlphanum_of_getLast?_snakeCaseFrom _ same) (by decide)
  · rw [text]
    exact isChain_snakeCaseFrom
  · intro front gap back b c parts before none behind
    rw [text, parts]
    obtain ⟨x, last, started, kept, spelled⟩ :=
      exists_snakeCaseFrom_append .none false front (b :: (gap ++ c :: back))
    obtain ⟨sep, nothing, -, next⟩ :=
      exists_snakeCaseFrom_letter before last started (gap ++ c :: back)
    refine ⟨x ++ sep, snakeCaseFrom (some c) true back, ?_, ?_⟩
    · rw [letters_append, nothing, List.append_nil, kept]
    · rw [spelled, next, snakeCaseFrom_joint before none behind, List.append_assoc]

/-! ## The rules leave no choice -/

namespace IsSnakeCase

variable {name p t u : List Char} {a : Char}

/-- Behind the same front one text cannot go on with an underscore and another with a letter. -/
theorem not_isAlphanum (ht : IsSnakeCase name (p ++ '_' :: t)) (hu : IsSnakeCase name (p ++ a :: u)) :
    ¬ a.isAlphanum := by
  intro letter
  -- the underscore stands between two letters or digits, `d` and `e`
  obtain rfl | ⟨q, d, rfl⟩ := List.eq_nil_or_concat p
  · exact ht.head rfl
  rw [List.concat_eq_append, List.append_assoc, List.singleton_append] at ht hu
  rcases t with _ | ⟨e, t⟩
  · exact ht.last (by simp)
  obtain ⟨apart, single⟩ := List.isChain_cons_cons.1 (List.isChain_append.1 ht.single).2.1
  have before : d.isAlphanum :=
    (ht.others d (by simp)).resolve_right fun same => apart same rfl
  have behind : e.isAlphanum :=
    (ht.others e (by simp)).resolve_right ((List.isChain_cons_cons.1 single).1 rfl)
  have kept : letters q ++ d :: e :: letters t = (letters name).map Char.toLower := by
    rw [← ht.kept, letters_append, letters_cons before, letters_cons_other (by decide),
      letters_cons behind]
  have kept' : letters q ++ d :: a :: letters u = (letters name).map Char.toLower := by
    rw [← hu.kept, letters_append, letters_cons before, letters_cons letter]
  obtain ⟨-, rest⟩ := List.append_inj (kept.trans kept'.symm) rfl
  obtain ⟨-, rfl, -⟩ : d = d ∧ e = a ∧ letters t = letters u := by simpa using rest
  -- in the name, these are two letters or digits without a third in between
  obtain ⟨front, b, gap, c, back, parts, hb, none, hc, fronts, rfl, rfl⟩ :=
    exists_of_map_letters kept.symm
  obtain ⟨x, y, hx, text⟩ := ht.joint parts hb none hc
  obtain ⟨x', y', hx', text'⟩ := hu.joint parts hb none hc
  obtain ⟨-, first⟩ := front_eq_of_letters text before before (fronts.symm.trans hx.symm)
  obtain ⟨-, second⟩ := front_eq_of_letters text' before before (fronts.symm.trans hx'.symm)
  split at first
  · rw [if_pos ‹_›] at second
    exact ne_underscore letter (List.head_eq_of_cons_eq second)
  · exact ne_underscore letter (List.head_eq_of_cons_eq first).symm

theorem eq_nil_of_letters (hu : IsSnakeCase name (p ++ u)) (none : letters u = []) : u = [] := by
  rcases List.eq_nil_or_concat u with rfl | ⟨v, d, rfl⟩
  · rfl
  · rw [List.concat_eq_append] at hu none
    have underscore : d = '_' := (hu.others d (by simp)).resolve_left
      (letters_eq_nil_iff.1 none d (by simp))
    refine absurd ?_ hu.last
    rw [← List.append_assoc, List.getLast?_concat, underscore]

theorem append_left_cancel (ht : IsSnakeCase name (p ++ t)) (hu : IsSnakeCase name (p ++ u)) :
    t = u := by
  have kept : letters t = letters u := by
    have same := ht.kept.trans hu.kept.symm
    rw [letters_append, letters_append] at same
    exact List.append_cancel_left same
  induction t generalizing p u with
  | nil => exact (hu.eq_nil_of_letters kept.symm).symm
  | cons a t ih =>
    rcases u with _ | ⟨b, u⟩
    · exact ht.eq_nil_of_letters kept
    obtain rfl : a = b := by
      rcases ht.others a (by simp) with letter | rfl
      · rcases hu.others b (by simp) with letter' | rfl
        · rw [letters_cons letter, letters_cons letter'] at kept
          exact List.head_eq_of_cons_eq kept
        · exact absurd letter (hu.not_isAlphanum ht)
      · rcases hu.others b (by simp) with letter' | rfl
        · exact absurd letter' (ht.not_isAlphanum hu)
        · rfl
    have split : ∀ {v : List Char}, p ++ a :: v = (p ++ [a]) ++ v := by simp
    rw [split] at ht hu
    have rest := List.append_cancel_left
      ((letters_append.symm.trans kept).trans letters_append : letters [a] ++ _ = letters [a] ++ _)
    rw [ih ht hu rest]

/-- A text in snake case is the snake case of itself. -/
theorem self (h : IsSnakeCase name t) : IsSnakeCase t t := by
  have lower : ∀ c ∈ letters t, c.toLower = c ∧ ¬ c.isUpper := by
    rw [h.kept]
    rintro c mem
    obtain ⟨d, hd, rfl⟩ := List.mem_map.1 mem
    have capital : ¬ d.toLower.isUpper := by
      rcases isLower_or_isDigit_toLower (List.mem_filter.1 hd).2 with lower | digit
      · exact (bounds_of_isLower lower).2
      · exact (bounds_of_isDigit digit).2
    exact ⟨toLower_of_not_isUpper capital, capital⟩
  refine { h with kept := ?_, joint := ?_ }
  · exact (List.map_congr_left fun c mem => (lower c mem).1).trans (List.map_id _) |>.symm
  · intro front gap back b c parts before none behind
    have mem : b ∈ letters t ∧ c ∈ letters t := by
      rw [parts]
      simp [letters, before, behind]
    have underscores : ∀ d ∈ gap, d = '_' := fun d hd =>
      (h.others d (by simp [parts, hd])).resolve_left (letters_eq_nil_iff.1 none d hd)
    have breaks : Breaks b gap c back.head? ↔ gap ≠ [] := by
      simp [Breaks, (lower c mem.2).2]
    refine ⟨front, back, ?_, ?_⟩
    · refine (List.map_congr_left fun d hd => (lower d ?_).1).trans (List.map_id _) |>.symm
      rw [parts, letters_append]
      exact List.mem_append_left _ hd
    · rw [(lower b mem.1).1, (lower c mem.2).1]
      simp only [breaks]
      rcases gap with _ | ⟨d, _ | ⟨e, gap⟩⟩
      · simpa using parts
      · obtain rfl := underscores d (by simp)
        simpa using parts
      · -- two underscores in a row
        obtain rfl := underscores d (by simp)
        obtain rfl := underscores e (by simp)
        have single := h.single
        rw [parts] at single
        have chain := (List.isChain_append.1 single).2.1
        exact absurd rfl ((List.isChain_cons_cons.1 (List.isChain_cons_cons.1 chain).2).1 rfl)

end IsSnakeCase

/-- The snake case of a name is the one text that follows the rules: the letters and digits of the
name in order, lower-cased, with single underscores where a word ends. So snake case is idempotent,
and it neither loses nor invents a letter or digit. -/
theorem snakeCase_eq_iff (name : String) :
    (∀ text : String, snakeCase name = text ↔ IsSnakeCase name.toList text.toList) ∧
    letters (snakeCase name).toList = (letters name.toList).map Char.toLower ∧
    snakeCase (snakeCase name) = snakeCase name := by
  have only : ∀ {name text : String}, IsSnakeCase name.toList text.toList →
      snakeCase name = text := fun {name _} h =>
    String.toList_inj.1 ((isSnakeCase_snakeCase name).append_left_cancel (p := []) h)
  refine ⟨fun text => ⟨?_, only⟩, (isSnakeCase_snakeCase name).kept,
    only (isSnakeCase_snakeCase name).self⟩
  rintro rfl
  exact isSnakeCase_snakeCase name

example : snakeCase "_NPCDialog2__message" = "npc_dialog2_message" := by decide

end WireCodec
