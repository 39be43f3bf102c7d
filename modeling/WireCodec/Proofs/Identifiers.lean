import Mathlib.Data.List.DropRight
import WireCodec.Proofs.FilePaths
import WireCodec.Proofs.WordBreaks

/-!
# Identifiers

Every identifier that is made of a schema name is one of the generated code: a keyword written raw,
or a word that is no keyword. Escaping a word puts nothing but underscores or the mark of a raw
identifier around it, and no snake case starts or ends in these. So two names have the same
identifier only if they have the same snake case, but for names without letters and digits, which
share the identifier `unnamed`.
-/

namespace WireCodec

/-! ## Identifiers of the language -/

/-- The words that mean something in the language of the generated code. -/
def strictKeywords : List String :=
  ["as", "async", "await", "break", "const", "continue", "crate", "dyn", "else", "enum", "extern",
    "false", "fn", "for", "if", "impl", "in", "let", "loop", "match", "mod", "move", "mut", "pub",
    "ref", "return", "self", "Self", "static", "struct", "super", "trait", "true", "type", "unsafe",
    "use", "where", "while"]

/-- The words that the language keeps for later use. -/
def reservedKeywords : List String :=
  ["abstract", "become", "box", "do", "final", "gen", "macro", "override", "priv", "try", "typeof",
    "unsized", "virtual", "yield"]

def IsKeyword (word : String) : Prop := word ∈ strictKeywords ∨ word ∈ reservedKeywords

instance (word : String) : Decidable (IsKeyword word) := inferInstanceAs (Decidable (_ ∨ _))

/-- An identifier that is not written raw, without capitals. -/
structure IsPlainIdentifier (ident : String) : Prop where
  nonempty : ident ≠ ""
  chars : ∀ c ∈ ident.toList, c.isLower ∨ c.isDigit ∨ c = '_'
  first : ¬ ident.toList.head?.any Char.isDigit
  notLone : ident ≠ "_"
  notKeyword : ¬ IsKeyword ident

/-- Those keywords that stand for places in paths cannot be written raw. -/
def IsIdentifier (ident : String) : Prop :=
  IsPlainIdentifier ident ∨
    ∃ word, IsKeyword word ∧ word ∉ ["crate", "self", "Self", "super"] ∧ ident = "r#" ++ word

/-! ## Escaped words -/

section Words

variable {word : String} (chars : ∀ c ∈ word.toList, c.isLower ∨ c.isDigit ∨ c = '_')
  (head : word.toList.head? ≠ some '_')

theorem head?_of_isKeyword (h : IsKeyword word) : word.toList.head? ≠ some '_' := by
  have strict : ∀ w ∈ strictKeywords, w.toList.head? ≠ some '_' := by decide
  have reserved : ∀ w ∈ reservedKeywords, w.toList.head? ≠ some '_' := by decide
  exact h.elim (strict word) (reserved word)

/-- Every keyword is escaped. -/
theorem mem_of_isKeyword (h : IsKeyword word) : word ∈ pathWords ∨ word ∈ keywords := by
  have strict : ∀ w ∈ strictKeywords, w ∈ pathWords ∨ w ∈ keywords := by decide
  have reserved : ∀ w ∈ reservedKeywords, w ∈ pathWords ∨ w ∈ keywords := by decide
  exact h.elim (strict word) (reserved word)

include chars head

theorem isIdentifier_escapeWord : IsIdentifier (escapeWord word) := by
  have behind : ∀ w ∈ pathWords, ¬ IsKeyword (w ++ "_") := by decide
  have letter : ∀ w ∈ pathWords, ¬ (w ++ "_").toList.head?.any Char.isDigit := by decide
  have raw : ∀ w ∈ keywords, IsKeyword w ∧ w ∉ ["crate", "self", "Self", "super"] := by decide
  have underscore : ∀ c ∈ "_".toList, c.isLower ∨ c.isDigit ∨ c = '_' := by simp
  have unnamed : "unnamed".toList.all Char.isLower := by decide
  unfold escapeWord
  split_ifs with empty path keyword digit
  · exact .inl ⟨by decide, fun c hc => .inl (List.all_eq_true.1 unnamed c hc), by decide,
      by decide, by decide⟩
  · refine .inl ⟨by simp, ?_, letter word path, ?_, behind word path⟩
    · rw [String.toList_append]
      exact List.forall_mem_append.2 ⟨chars, underscore⟩
    · simpa using empty
  · exact .inr ⟨word, (raw word keyword).1, (raw word keyword).2, rfl⟩
  · refine .inl ⟨by simp, ?_, by simp, ?_, fun h => ?_⟩
    · rw [String.toList_append]
      exact List.forall_mem_append.2 ⟨underscore, chars⟩
    · simpa using empty
    · exact head?_of_isKeyword h (by simp)
  · refine .inl ⟨empty, chars, digit, ?_, fun h => (mem_of_isKeyword h).elim path keyword⟩
    rintro rfl
    exact head rfl

end Words

/-! ## Words of identifiers -/

/-- What is left of a text without the underscores at its ends. -/
def trimmed (cs : List Char) : List Char := (cs.dropWhile (· = '_')).rdropWhile (· = '_')

theorem trimmed_append {u cs v : List Char} (front : ∀ c ∈ u, c = '_') (back : ∀ c ∈ v, c = '_')
    (head : cs.head? ≠ some '_') (last : cs.getLast? ≠ some '_') (nonempty : cs ≠ []) :
    trimmed (u ++ (cs ++ v)) = cs := by
  obtain ⟨c, rest, rfl⟩ := List.exists_cons_of_ne_nil nonempty
  have starts : ¬ c = '_' := by simpa using head
  unfold trimmed List.rdropWhile
  rw [List.dropWhile_append_of_pos (by simpa using front), List.cons_append,
    List.dropWhile_cons_of_neg (by simpa using starts), ← List.cons_append, List.reverse_append,
    List.dropWhile_append_of_pos (by simpa using back)]
  rw [← List.head?_reverse] at last
  obtain ⟨d, front', reversed⟩ := List.exists_cons_of_ne_nil (List.reverse_ne_nil_iff.2 nonempty)
  rw [reversed] at last ⊢
  have ends : ¬ d = '_' := by simpa using last
  rw [List.dropWhile_cons_of_neg (by simpa using ends), ← reversed, List.reverse_reverse]

/-- A word stands in its identifier between underscores, behind the mark of a raw identifier. -/
theorem exists_fileName_escapeWord {word : String} (nonempty : word ≠ "")
    (plain : '#' ∉ word.toList) : ∃ u v : List Char, (∀ c ∈ u, c = '_') ∧ (∀ c ∈ v, c = '_') ∧
      (fileName (escapeWord word)).toList = u ++ (word.toList ++ v) := by
  by_cases keyword : word ∈ keywords
  · refine ⟨[], [], by simp, by simp, ?_⟩
    rw [escapeWord_of_mem keyword, fileName_raw plain, List.nil_append, List.append_nil]
  · rw [fileName_of_not_mem (not_mem_escapeWord keyword plain)]
    unfold escapeWord
    rw [if_neg nonempty]
    split_ifs
    · exact ⟨[], ['_'], by simp, by simp, by simp⟩
    · exact ⟨['_'], [], by simp, by simp, by simp⟩
    · exact ⟨[], [], by simp, by simp, by simp⟩

theorem trimmed_identifier (name : String) : trimmed (fileName (identifier name)).toList =
    if snakeCase name = "" then "unnamed".toList else (snakeCase name).toList := by
  have snake := isSnakeCase_snakeCase name
  unfold identifier
  split_ifs with empty
  · rw [empty]
    decide
  · obtain ⟨u, v, front, back, text⟩ :=
      exists_fileName_escapeWord empty (not_mem_snakeCase name)
    rw [text]
    exact trimmed_append front back snake.head snake.last (by simpa using empty)

/-! ## Identifiers of names -/

theorem isIdentifier_identifier (name : String) : IsIdentifier (identifier name) := by
  refine isIdentifier_escapeWord (forall_mem_snakeCase (.inr (.inr rfl)) ?_ name)
    (isSnakeCase_snakeCase name).head
  exact fun c letter => (isLower_or_isDigit_toLower letter).imp_right .inl

theorem identifier_eq_iff (name other : String) : identifier name = identifier other ↔
    snakeCase name = snakeCase other ∨ snakeCase name = "" ∧ snakeCase other = "unnamed" ∨
      snakeCase name = "unnamed" ∧ snakeCase other = "" := by
  have unnamed : escapeWord "" = escapeWord "unnamed" := by decide
  constructor
  · intro same
    have words := congrArg (fun ident => trimmed (fileName ident).toList) same
    simp only [trimmed_identifier] at words
    split_ifs at words with empty empty' empty'
    · exact .inl (empty.trans empty'.symm)
    · exact .inr (.inl ⟨empty, (String.toList_inj.1 words).symm⟩)
    · exact .inr (.inr ⟨String.toList_inj.1 words, empty'⟩)
    · exact .inl (String.toList_inj.1 words)
  · unfold identifier
    rintro (same | ⟨empty, word⟩ | ⟨word, empty⟩)
    · rw [same]
    · rw [empty, word, unnamed]
    · rw [empty, word, unnamed]

/-- Whatever a field, a message or a package is called and whatever the settings are, the names that
are made of it are identifiers: those of fields and modules, and all segments of packages and
messages. Two names have the same one exactly if they have the same snake case, or if one of them
has no letters and digits and the other one is spelled `unnamed`. -/
theorem isIdentifier_segments (settings : Settings) (root package name : String) :
    IsIdentifier (identifier name) ∧
    (∀ segment ∈ packageSegments root package, IsIdentifier segment) ∧
    (∀ segment ∈ settings.messageSegments package name, IsIdentifier segment) ∧
    ∀ other, identifier name = identifier other ↔
      snakeCase name = snakeCase other ∨ snakeCase name = "" ∧ snakeCase other = "unnamed" ∨
        snakeCase name = "unnamed" ∧ snakeCase other = "" := by
  have made : ∀ segments : List String, (∀ segment ∈ segments, ∃ n, identifier n = segment) →
      ∀ segment ∈ segments, IsIdentifier segment := by
    intro segments made segment mem
    obtain ⟨n, rfl⟩ := made segment mem
    exact isIdentifier_identifier n
  have message : ∀ settings : Settings,
      ∀ segment ∈ settings.messageSegments package name, IsIdentifier segment := fun settings =>
    made _ (Artifact.isModule_messageSegments settings package name).identifiers
  refine ⟨isIdentifier_identifier name, ?_, message settings, identifier_eq_iff name⟩
  exact fun segment mem =>
    message { packageRoot := root } segment (List.mem_append_left [identifier name] mem)

example : identifier "Type" = "r#type" ∧ identifier "self" = "self_" ∧ identifier "2D" = "_2_d" ∧
    identifier "…" = "unnamed" := by decide

end WireCodec
