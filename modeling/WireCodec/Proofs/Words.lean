import WireCodec.Naming.Path
import WireCodec.Proofs.SourceLines

/-!
# The characters of names

A segment of a module path is made of lower-case letters, digits, underscores and the mark of a raw
identifier (`IsSegmentChar`), whatever name it comes from. Names that are identifiers, raw ones
among them, are words (`IsWord`), and so are segments. Neither has a character that the generated
code uses between names.
-/

namespace WireCodec

/-! ## Segments -/

/-- A character of a segment. -/
def IsSegmentChar (c : Char) : Prop := c.isLower ∨ c.isDigit ∨ c = '_' ∨ c = '#'

instance (c : Char) : Decidable (IsSegmentChar c) :=
  inferInstanceAs (Decidable (c.isLower ∨ c.isDigit ∨ c = '_' ∨ c = '#'))

theorem isLower_or_isDigit_toLower {c : Char} (h : c.isAlphanum) :
    c.toLower.isLower ∨ c.toLower.isDigit := by
  by_cases upper : c.val ≥ 'A'.val ∧ c.val ≤ 'Z'.val
  · left
    unfold Char.toLower
    rw [dif_pos upper]
    have value : c.val.toNat = c.toNat := rfl
    simp only [ge_iff_le, UInt32.le_iff_toNat_le, Char.reduceVal, UInt32.reduceToNat] at upper
    unfold Char.isLower
    simp [UInt32.le_iff_toNat_le]
    omega
  · unfold Char.toLower
    rw [dif_neg upper]
    rcases Bool.or_eq_true_iff.1 h with letter | digit
    · rcases Bool.or_eq_true_iff.1 letter with capital | lower
      · unfold Char.isUpper at capital
        exact absurd (by simpa using capital) upper
      · exact .inl lower
    · exact .inr digit

theorem toLower_of_not_isUpper {c : Char} (h : ¬ c.isUpper) : c.toLower = c := by
  unfold Char.toLower
  rw [dif_neg]
  intro upper
  exact h (by unfold Char.isUpper; simpa using upper)

theorem bounds_of_isLower {c : Char} (h : c.isLower) : c.toNat < 128 ∧ ¬ c.isUpper := by
  have value : c.val.toNat = c.toNat := rfl
  unfold Char.isLower at h
  unfold Char.isUpper
  simp only [ge_iff_le, UInt32.le_iff_toNat_le, Bool.and_eq_true, decide_eq_true_eq, Char.reduceVal,
    UInt32.reduceToNat] at h ⊢
  omega

theorem bounds_of_isDigit {c : Char} (h : c.isDigit) : c.toNat < 128 ∧ ¬ c.isUpper := by
  have value : c.val.toNat = c.toNat := rfl
  unfold Char.isDigit at h
  unfold Char.isUpper
  simp only [ge_iff_le, UInt32.le_iff_toNat_le, Bool.and_eq_true, decide_eq_true_eq, Char.reduceVal,
    UInt32.reduceToNat] at h ⊢
  omega

/-- Snake case is made of underscores and of letters and digits of the name, lower-cased. -/
theorem forall_mem_snakeCaseFrom {P : Char → Prop} (underscore : P '_')
    (word : ∀ c : Char, c.isAlphanum → P c.toLower) {before : Option Char} {started : Bool}
    {cs : List Char} : ∀ c ∈ snakeCaseFrom before started cs, P c := by
  induction cs generalizing before started with
  | nil => simp [snakeCaseFrom]
  | cons c cs ih =>
    have spelled (letter : c.isAlphanum) (apart : Bool) :
        ∀ d ∈ if apart then '_' :: c.toLower :: snakeCaseFrom (some c) true cs
          else c.toLower :: snakeCaseFrom (some c) true cs, P d := by
      have rest : ∀ d ∈ c.toLower :: snakeCaseFrom (some c) true cs, P d :=
        List.forall_mem_cons.2 ⟨word c letter, ih⟩
      cases apart with
      | false => exact rest
      | true => exact List.forall_mem_cons.2 ⟨underscore, rest⟩
    unfold snakeCaseFrom
    split
    · rename_i letter
      exact spelled letter _
    · exact ih

theorem forall_mem_snakeCase {P : Char → Prop} (underscore : P '_')
    (word : ∀ c : Char, c.isAlphanum → P c.toLower) (name : String) :
    ∀ c ∈ (snakeCase name).toList, P c := by
  rw [snakeCase, String.toList_ofList]
  exact forall_mem_snakeCaseFrom underscore word

/-- A segment of a module path. -/
def IsSegment (segment : String) : Prop := ∀ c ∈ segment.toList, IsSegmentChar c

instance (segment : String) : Decidable (IsSegment segment) :=
  List.decidableBAll IsSegmentChar segment.toList

theorem isSegment_identifier (name : String) : IsSegment (identifier name) := by
  have snake : IsSegment (snakeCase name) :=
    forall_mem_snakeCase (show IsSegmentChar '_' by decide)
      (fun _ letter => (isLower_or_isDigit_toLower letter).imp_right .inl) name
  have append {a b : String} (ha : IsSegment a) (hb : IsSegment b) : IsSegment (a ++ b) := by
    unfold IsSegment
    rw [String.toList_append]
    exact List.forall_mem_append.2 ⟨ha, hb⟩
  unfold identifier escapeWord
  split
  · decide
  split
  · exact append snake (by decide)
  split
  · exact append (by decide) snake
  split
  · exact append (by decide) snake
  · exact snake

theorem isSegment_packageSegments (root package : String) :
    ∀ segment ∈ packageSegments root package, IsSegment segment := by
  intro segment mem
  obtain ⟨part, -, found⟩ := List.mem_filterMap.1 mem
  split at found
  · exact nomatch found
  · cases found
    exact isSegment_identifier _

theorem isSegment_messageSegments (settings : Settings) (package name : String) :
    ∀ segment ∈ settings.messageSegments package name, IsSegment segment :=
  List.forall_mem_append.2
    ⟨isSegment_packageSegments _ _, List.forall_mem_singleton.2 (isSegment_identifier name)⟩

theorem IsSegment.not_mem {segment : String} (h : IsSegment segment) {c : Char}
    (other : ¬ IsSegmentChar c) : c ∉ segment.toList :=
  fun mem => other (h c mem)

/-! ## Identifiers -/

/-- A character of a name; `#` stands in raw identifiers. -/
def isNameChar (c : Char) : Bool := c.isAlphanum || c == '_' || c == '#' || 128 ≤ c.toNat

/-- Every character can stand in a name, as in an identifier. -/
def IsWord (name : String) : Prop := ∀ c ∈ name.toList, isNameChar c

instance (name : String) : Decidable (IsWord name) :=
  List.decidableBAll (fun c : Char => isNameChar c) name.toList

theorem isWord_of_isSegment {segment : String} (h : IsSegment segment) : IsWord segment := by
  intro c hc
  rcases h c hc with lower | digit | rfl | rfl
  · have letter : c.isAlpha := Bool.or_eq_true_iff.2 (.inr lower)
    simp [isNameChar, Char.isAlphanum, letter]
  · simp [isNameChar, Char.isAlphanum, digit]
  · rfl
  · rfl

namespace IsWord

/-- A name that is given in full. -/
theorem literal {name : String} {cs : List Char} (chars : name = .ofList cs)
    (word : cs.all isNameChar) : IsWord name := by
  intro c hc
  rw [chars, String.toList_ofList] at hc
  exact List.all_eq_true.1 word c hc

variable {name : String} (h : IsWord name)

include h

theorem append {name' : String} (h' : IsWord name') : IsWord (name ++ name') := by
  rw [IsWord, String.toList_append]
  exact List.forall_mem_append.2 ⟨h, h'⟩

theorem not_mem {c : Char} (other : ¬ isNameChar c) : c ∉ name.toList :=
  fun mem => other (h c mem)

theorem unbroken : Unbroken name := by
  intro c hc
  constructor
  · rintro rfl
    exact h.not_mem (by decide) hc
  · rintro rfl
    exact h.not_mem (by decide) hc

end IsWord

theorem IsSegment.unbroken {segment : String} (h : IsSegment segment) : Unbroken segment :=
  (isWord_of_isSegment h).unbroken

/-! ## Paths -/

theorem not_mem_joinPath {c : Char} (other : ¬ IsSegmentChar c) (colon : c ≠ ':') {root : String}
    {segments : List String} (h : c ∉ root.toList) (inner : ∀ s ∈ segments, IsSegment s) :
    c ∉ (joinPath root segments).toList := by
  induction segments generalizing root with
  | nil => exact h
  | cons segment segments ih =>
    obtain ⟨first, others⟩ := List.forall_mem_cons.1 inner
    refine ih ?_ others
    unfold pathSnoc
    split
    · exact first.not_mem other
    · simp [h, colon, first.not_mem other]

theorem unbroken_joinPath {root : String} {segments : List String} (h : Unbroken root)
    (inner : ∀ segment ∈ segments, IsSegment segment) : Unbroken (joinPath root segments) := by
  intro c hc
  constructor
  · rintro rfl
    exact not_mem_joinPath (by decide) (by decide) (fun mem => (h _ mem).1 rfl) inner hc
  · rintro rfl
    exact not_mem_joinPath (by decide) (by decide) (fun mem => (h _ mem).2 rfl) inner hc

namespace Settings

/-- The paths of the settings that generated code spells stay on their lines. -/
structure Neat (settings : Settings) : Prop where
  messagesRoot : Unbroken settings.messagesRoot
  typesRoot : Unbroken settings.typesRoot
  runtimeCrate : Unbroken settings.runtimeCrate

namespace Neat

variable {settings : Settings} (h : settings.Neat) {name : String} (plain : Unbroken name)

include h plain

theorem messagePath (package : String) : Unbroken (settings.messagePath package name) := by
  have module := unbroken_joinPath h.messagesRoot
    (isSegment_messageSegments settings package name)
  simp +decide [Settings.messagePath, Settings.messageModule, module, plain]

theorem typePath (package : String) : Unbroken (settings.typePath package name) := by
  have module := unbroken_joinPath h.typesRoot
    (isSegment_packageSegments settings.packageRoot package)
  simp +decide [Settings.typePath, module, plain]

end Neat

end Settings

end WireCodec
