import Mathlib.Data.List.Basic
import WireCodec.Game.Declarations
import WireCodec.Proofs.SourceLines
import WireCodec.Wire.Text

/-!
# Reading the schema's text

No token goes beyond the end of its line, so a text is scanned line by line. The text of the
protocol's schema stands for the declarations of its messages and types.
-/

namespace WireCodec

namespace JsonToken

/-! ## Lines -/

/-- What stands behind a string is not looked at. -/
theorem scanString_append {cs rest : List Char} {units : List StringUnit}
    (h : scanString cs = some (units, rest)) (more : List Char) :
    scanString (cs ++ more) = some (units, rest ++ more) := by
  fun_induction scanString cs generalizing units rest with
  | case1 => cases h
  | case2 rest' =>
    cases h
    rfl
  | case3 a b c d rest' code found ih =>
    obtain ⟨behind, hs, rfl⟩ := exists_of_consUnit h
    simp [scanString, found, ih hs, consUnit]
  | case4 => cases h
  | case5 letter rest' _ c found ih =>
    obtain ⟨behind, hs, rfl⟩ := exists_of_consUnit h
    have other : letter ≠ 'u' := by
      rintro rfl
      cases found
    simp [scanString, other, found, ih hs, consUnit]
  | case6 => cases h
  | case7 => cases h
  | case8 c rest' _ _ noEscape visible ih =>
    obtain ⟨behind, hs, rfl⟩ := exists_of_consUnit h
    have noBackslash : c ≠ '\\' := by
      rintro rfl
      cases rest' with
      | nil => cases hs
      | cons letter rest' => exact noEscape letter rest' rfl rfl
    simp [scanString, noBackslash, visible, ih hs, consUnit]

section Scanning

variable {c : Char} {cs rest : List Char}

theorem scan?_blank (blank : isBlank c) : scan? (c :: cs) = scan? cs := by
  rw [scan?, if_pos blank]

theorem scan?_quote {units : List StringUnit} (h : scanString cs = some (units, rest)) :
    scan? ('"' :: cs) =
      (string (String.ofList <$> StringUnit.chars? units) :: ·) <$> scan? rest := by
  rw [scan?, if_neg (by decide), if_pos rfl]
  split
  · rename_i open'
    cases h.symm.trans open'
  · rename_i closed
    cases h.symm.trans closed
    rfl

theorem scan?_openQuote (h : scanString cs = none) : scan? ('"' :: cs) = none := by
  rw [scan?, if_neg (by decide), if_pos rfl]
  split
  · rfl
  · rename_i closed
    cases h.symm.trans closed

variable (visible : ¬ isBlank c) (noQuote : c ≠ '"')

include visible noQuote

theorem scan?_punctuation {token : JsonToken} (h : punctuation? c = some token) :
    scan? (c :: cs) = (token :: ·) <$> scan? cs := by
  rw [scan?, if_neg visible, if_neg noQuote, h]

theorem scan?_word (h : punctuation? c = none) :
    scan? (c :: cs) = (word? (c :: cs.takeWhile isWordChar)).bind fun token =>
      (token :: ·) <$> scan? (cs.dropWhile isWordChar) := by
  rw [scan?, if_neg visible, if_neg noQuote, h]
  rfl

end Scanning

/-- A word ends where its line does. -/
theorem takeWhile_append_lineFeed (cs rest : List Char) :
    (cs ++ '\n' :: rest).takeWhile isWordChar = cs.takeWhile isWordChar ∧
      (cs ++ '\n' :: rest).dropWhile isWordChar = cs.dropWhile isWordChar ++ '\n' :: rest := by
  induction cs with
  | nil => exact ⟨rfl, rfl⟩
  | cons c cs ih => cases word : isWordChar c <;> simp [word, ih]

/-- The tokens of a line stand in front of those of the lines below. -/
theorem scan?_append {line : List Char} {tokens : List JsonToken} (h : scan? line = some tokens)
    (rest : List Char) : scan? (line ++ '\n' :: rest) = (tokens ++ ·) <$> scan? rest := by
  induction line using scan?.induct generalizing tokens with
  | case1 =>
    cases h.symm.trans scan?_nil
    rw [List.nil_append, scan?_blank rfl]
    simp
  | case2 c line blank ih =>
    rw [scan?_blank blank] at h
    rw [List.cons_append, scan?_blank blank, ih h]
  | case3 line open' _ => cases h.symm.trans (scan?_openQuote open')
  | case4 line units rest' found _ _ ih =>
    rw [scan?_quote found] at h
    obtain ⟨behind, hs, rfl⟩ := Option.map_eq_some_iff.1 h
    rw [List.cons_append, scan?_quote (scanString_append found _), ih hs, Functor.map_map]
    rfl
  | case5 c line visible noQuote token found ih =>
    rw [scan?_punctuation visible noQuote found] at h
    obtain ⟨behind, hs, rfl⟩ := Option.map_eq_some_iff.1 h
    rw [List.cons_append, scan?_punctuation visible noQuote found, ih hs, Functor.map_map]
    rfl
  | case6 c line visible noQuote none ih =>
    rw [scan?_word visible noQuote none] at h
    obtain ⟨token, word, h⟩ := Option.bind_eq_some_iff.1 h
    obtain ⟨behind, hs, rfl⟩ := Option.map_eq_some_iff.1 h
    obtain ⟨same, left⟩ := takeWhile_append_lineFeed line rest
    rw [List.cons_append, scan?_word visible noQuote none, same, left, word, Option.bind_some,
      ih hs, Functor.map_map]
    rfl

/-- A text is scanned line by line. -/
theorem scan?_lines {lines : List (List Char)} {tokens : List (List JsonToken)}
    (h : lines.mapM scan? = some tokens) :
    scan? (lines.flatMap (· ++ ['\n'])) = some tokens.flatten := by
  induction lines generalizing tokens with
  | nil =>
    cases h
    exact scan?_nil
  | cons line lines ih =>
    rw [List.mapM_cons] at h
    obtain ⟨first, scanned, h⟩ := Option.bind_eq_some_iff.1 h
    obtain ⟨others, rest, h⟩ := Option.bind_eq_some_iff.1 h
    cases h
    rw [List.flatMap_cons, List.append_assoc, List.singleton_append, scan?_append scanned, ih rest]
    rfl

end JsonToken

/-! ## Characters -/

/-- The characters of a text whose bytes are all ASCII. -/
def asciiChars (text : String) : List Char := (utf8 text).map fun b => .ofNat b.toNat

theorem utf8EncodeChar_of_lt {b : UInt8} (ascii : b < 128) :
    String.utf8EncodeChar (.ofNat b.toNat) = [b] := by
  have each : ∀ n < 128, String.utf8EncodeChar (.ofNat n) = [.ofNat n] := by decide
  rw [each b.toNat ascii, UInt8.ofNat_toNat]

/-- The characters of an ASCII text are those of its bytes. They are computed faster from these than
by decoding the text. -/
theorem asciiChars_eq {text : String} (ascii : ∀ b ∈ utf8 text, b < 128) :
    asciiChars text = text.toList := by
  have bytes : utf8 (.ofList (asciiChars text)) = utf8 text := by
    unfold utf8 asciiChars
    rw [String.toByteArray_ofList, List.utf8Encode, List.data_toByteArray, List.flatMap_map]
    refine (List.flatMap_congr fun b hb => utf8EncodeChar_of_lt (ascii b hb)).trans ?_
    exact List.flatMap_singleton' _
  have same : String.ofList (asciiChars text) = text := by
    have read := ofUtf8?_utf8 text
    rw [← bytes, ofUtf8?_utf8] at read
    exact Option.some.inj read
  rw [← String.toList_ofList (l := asciiChars text), same]

/-! ## The text of the protocol's schema -/

namespace Game

theorem toList_schemaText :
    schemaText.toList = (schemaLines.map asciiChars).flatMap (· ++ ['\n']) := by
  have ascii : schemaLines.all fun line => (utf8 line).all (· < 128) := by decide +kernel
  simp only [List.all_eq_true, decide_eq_true_eq] at ascii
  rw [schemaText, Source.toList_join, List.flatMap_map, List.flatMap_map]
  refine List.flatMap_congr fun line mem => ?_
  rw [asciiChars_eq (ascii line mem), String.toList_append]
  rfl

/-- The text of the schema stands for the declarations. -/
theorem ofText?_schemaText : Schema.ofText? schemaText = some schema := by
  have read : ((schemaLines.map asciiChars).mapM JsonToken.scan?).bind (fun tokens =>
      JsonValue.ofTokens? tokens.flatten >>= Schema.ofJson?) = some schema := by decide +kernel
  obtain ⟨tokens, scanned, decoded⟩ := Option.bind_eq_some_iff.1 read
  rw [Schema.ofText?, JsonValue.ofText?, toList_schemaText, JsonToken.scan?_lines scanned]
  exact decoded

end Game

end WireCodec
