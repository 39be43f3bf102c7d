import WireCodec.Proofs.SchemaText

/-!
# JSON texts

The grammar of JSON, as a relation between values and texts (`JsonValue.SpelledBy`): any blanks
around a value and around punctuation, any escapes in strings, numbers with fraction and exponent.
A text that spells a value is read as that value (`JsonValue.ofText?_of_spelledBy`).
-/

namespace WireCodec

/-! ## Strings -/

/-- The hexadecimal digit of a number, in lower or upper case. -/
def IsHexDigit (c : Char) (n : Nat) : Prop :=
  n < 16 ∧ ("0123456789abcdef".toList[n]? = some c ∨ "0123456789ABCDEF".toList[n]? = some c)

/-- Four hexadecimal digits of a number. -/
inductive IsHexCode : List Char → Nat → Prop
  | digits {a b c d : Char} {k l m n : Nat} (first : IsHexDigit a k) (second : IsHexDigit b l)
    (third : IsHexDigit c m) (fourth : IsHexDigit d n) :
    IsHexCode [a, b, c, d] (k * 0x1000 + l * 0x100 + m * 0x10 + n)

/-- The escapes of one letter, each with the character for which it stands. -/
def shortEscapes : List (Char × Char) :=
  [('"', '"'), ('\\', '\\'), ('/', '/'), ('b', '\x08'), ('f', '\x0c'), ('n', '\n'), ('r', '\r'),
    ('t', '\t')]

/-- The character can stand for itself in a string. -/
def IsUnescaped (c : Char) : Prop := ' ' ≤ c ∧ c ≠ '"' ∧ c ≠ '\\'

/-- What stands between the quotes of a string. -/
inductive IsBody : List Char → Prop
  | nil : IsBody []
  | unescaped {c : Char} {body : List Char} (h : IsUnescaped c) (rest : IsBody body) :
    IsBody (c :: body)
  | short {e c : Char} {body : List Char} (h : (e, c) ∈ shortEscapes) (rest : IsBody body) :
    IsBody ('\\' :: e :: body)
  | code {digits body : List Char} {n : Nat} (h : IsHexCode digits n) (rest : IsBody body) :
    IsBody ('\\' :: 'u' :: (digits ++ body))

/-- What stands between the quotes of a string spells the characters. A code is that of a character
or, with the code behind it, of a pair of surrogates. -/
inductive BodySpells : List Char → List Char → Prop
  | nil : BodySpells [] []
  | unescaped {c : Char} {body text : List Char} (h : IsUnescaped c)
    (rest : BodySpells body text) : BodySpells (c :: body) (c :: text)
  | short {e c : Char} {body text : List Char} (h : (e, c) ∈ shortEscapes)
    (rest : BodySpells body text) : BodySpells ('\\' :: e :: body) (c :: text)
  | code {c : Char} {digits body text : List Char} (h : IsHexCode digits c.toNat)
    (rest : BodySpells body text) : BodySpells ('\\' :: 'u' :: (digits ++ body)) (c :: text)
  | pair {c : Char} {high low : Nat} {digits digits' body text : List Char}
    (h : IsHexCode digits high) (h' : IsHexCode digits' low)
    (isHigh : 0xD800 ≤ high ∧ high < 0xDC00) (isLow : 0xDC00 ≤ low ∧ low < 0xE000)
    (paired : c.toNat = 0x10000 + (high - 0xD800) * 0x400 + (low - 0xDC00))
    (rest : BodySpells body text) :
    BodySpells ('\\' :: 'u' :: (digits ++ '\\' :: 'u' :: (digits' ++ body))) (c :: text)

/-- A string between its quotes; one that spells no characters has no text. -/
inductive StringSpells : List Char → Option String → Prop
  | text {body text : List Char} (h : BodySpells body text) :
    StringSpells ('"' :: (body ++ ['"'])) (some (.ofList text))
  | none {body : List Char} (h : IsBody body) (silent : ∀ text, ¬ BodySpells body text) :
    StringSpells ('"' :: (body ++ ['"'])) none

instance (c : Char) : Decidable (IsUnescaped c) := inferInstanceAs (Decidable (_ ∧ _))

theorem bodySpells_self {text : List Char} (h : ∀ c ∈ text, IsUnescaped c) :
    BodySpells text text := by
  induction text with
  | nil => exact .nil
  | cons c text ih =>
    obtain ⟨first, others⟩ := List.forall_mem_cons.1 h
    exact .unescaped first (ih others)

theorem stringSpells_self {text : String} (h : ∀ c ∈ text.toList, IsUnescaped c) :
    StringSpells ('"' :: (text.toList ++ ['"'])) (some text) := by
  have spells := StringSpells.text (bodySpells_self h)
  rwa [String.ofList_toList] at spells

/-! ## Numbers -/

/-- One digit or more. -/
def IsDigits (cs : List Char) : Prop := cs ≠ [] ∧ ∀ c ∈ cs, c.isDigit

/-- The parts of a number: an optional sign, digits without a leading zero, an optional fraction and
an optional exponent. -/
structure IsNumeral (sign whole fraction exponent : List Char) : Prop where
  sign : sign = [] ∨ sign = ['-']
  whole : whole = ['0'] ∨ IsDigits whole ∧ whole.head? ≠ some '0'
  fraction : fraction = [] ∨ ∃ ds, IsDigits ds ∧ fraction = '.' :: ds
  exponent : exponent = [] ∨ ∃ e sign ds, (e = 'e' ∨ e = 'E') ∧
    (sign = [] ∨ sign = ['+'] ∨ sign = ['-']) ∧ IsDigits ds ∧ exponent = e :: (sign ++ ds)

/-! ## Values -/

/-- Blanks: spaces, tabs, line feeds and carriage returns. -/
def IsBlanks (cs : List Char) : Prop := ∀ c ∈ cs, c ∈ [' ', '\t', '\n', '\r']

/-- A character of punctuation with any blanks around it. -/
inductive IsMark (c : Char) : List Char → Prop
  | blanks {before after : List Char} (h : IsBlanks before) (h' : IsBlanks after) :
    IsMark c (before ++ c :: after)

/-- What a piece of a JSON text can spell. -/
inductive JsonPart
  | value (v : JsonValue)
  | items (vs : List JsonValue)
  | members (ms : List (Option String × JsonValue))

/-- The grammar of values, of the items of an array and of the members of an object. -/
inductive PartSpells : List Char → JsonPart → Prop
  | null : PartSpells ['n', 'u', 'l', 'l'] (.value .null)
  | true : PartSpells ['t', 'r', 'u', 'e'] (.value (.bool true))
  | false : PartSpells ['f', 'a', 'l', 's', 'e'] (.value (.bool false))
  | number {sign whole fraction exponent : List Char}
    (h : IsNumeral sign whole fraction exponent) :
    PartSpells (sign ++ whole ++ fraction ++ exponent)
      (.value (.number (.ofList (sign ++ whole ++ fraction ++ exponent))))
  | string {cs : List Char} {text : Option String} (h : StringSpells cs text) :
    PartSpells cs (.value (.string text))
  | emptyArray {opening closing : List Char} (h : IsMark '[' opening) (h' : IsMark ']' closing) :
    PartSpells (opening ++ closing) (.value (.array []))
  | array {opening cs closing : List Char} {vs : List JsonValue} (h : IsMark '[' opening)
    (inner : PartSpells cs (.items vs)) (h' : IsMark ']' closing) :
    PartSpells (opening ++ cs ++ closing) (.value (.array vs))
  | emptyObject {opening closing : List Char} (h : IsMark '\x7b' opening)
    (h' : IsMark '\x7d' closing) : PartSpells (opening ++ closing) (.value (.object []))
  | object {opening cs closing : List Char} {ms : List (Option String × JsonValue)}
    (h : IsMark '\x7b' opening) (inner : PartSpells cs (.members ms))
    (h' : IsMark '\x7d' closing) : PartSpells (opening ++ cs ++ closing) (.value (.object ms))
  | item {cs : List Char} {v : JsonValue} (h : PartSpells cs (.value v)) :
    PartSpells cs (.items [v])
  | moreItems {cs comma cs' : List Char} {v : JsonValue} {vs : List JsonValue}
    (h : PartSpells cs (.value v)) (mark : IsMark ',' comma) (h' : PartSpells cs' (.items vs)) :
    PartSpells (cs ++ comma ++ cs') (.items (v :: vs))
  | member {key colon cs : List Char} {k : Option String} {v : JsonValue}
    (hk : StringSpells key k) (mark : IsMark ':' colon) (h : PartSpells cs (.value v)) :
    PartSpells (key ++ colon ++ cs) (.members [(k, v)])
  | moreMembers {key colon cs comma cs' : List Char} {k : Option String} {v : JsonValue}
    {ms : List (Option String × JsonValue)} (hk : StringSpells key k) (mark : IsMark ':' colon)
    (h : PartSpells cs (.value v)) (mark' : IsMark ',' comma) (h' : PartSpells cs' (.members ms)) :
    PartSpells (key ++ colon ++ cs ++ comma ++ cs') (.members ((k, v) :: ms))

/-- The text spells the value, with any blanks around it. -/
inductive JsonValue.SpelledBy (v : JsonValue) : String → Prop
  | blanks {before cs after : List Char} (h : IsBlanks before) (inner : PartSpells cs (.value v))
    (h' : IsBlanks after) : v.SpelledBy (.ofList (before ++ cs ++ after))

/-! ## Reading strings -/

namespace JsonToken

theorem hexDigit?_of_isHexDigit {c : Char} {n : Nat} (h : IsHexDigit c n) :
    hexDigit? c = some n := by
  obtain ⟨small, digit⟩ := h
  have each : ∀ n < 16,
      ("0123456789abcdef".toList[n]?.all fun c => hexDigit? c = some n) ∧
        "0123456789ABCDEF".toList[n]?.all fun c => hexDigit? c = some n := by
    decide +kernel
  obtain ⟨lower, upper⟩ := each n small
  rcases digit with digit | digit
  · rw [digit] at lower
    simpa using lower
  · rw [digit] at upper
    simpa using upper

theorem exists_of_isHexCode {digits : List Char} {n : Nat} (h : IsHexCode digits n) :
    ∃ a b c d, digits = [a, b, c, d] ∧ hexCode? a b c d = some n := by
  cases h with
  | @digits a b c d k l m n first second third fourth =>
    refine ⟨a, b, c, d, rfl, ?_⟩
    simp only [hexCode?, List.foldlM_cons, List.foldlM_nil, hexDigit?_of_isHexDigit first,
      hexDigit?_of_isHexDigit second, hexDigit?_of_isHexDigit third,
      hexDigit?_of_isHexDigit fourth]
    simp
    omega

theorem escape?_of_mem {e c : Char} (h : (e, c) ∈ shortEscapes) :
    escape? e = some c ∧ e ≠ 'u' := by
  have each : ∀ p ∈ shortEscapes, escape? p.1 = some p.2 ∧ p.1 ≠ 'u' := by decide
  exact each _ h

/-- The units of the string whose quoted part is `body`. -/
inductive Units : List Char → List StringUnit → Prop
  | nil : Units [] []
  | unescaped {c : Char} {body : List Char} {units : List StringUnit} (h : IsUnescaped c)
    (rest : Units body units) : Units (c :: body) (.char c :: units)
  | short {e c : Char} {body : List Char} {units : List StringUnit} (h : (e, c) ∈ shortEscapes)
    (rest : Units body units) : Units ('\\' :: e :: body) (.char c :: units)
  | code {digits body : List Char} {n : Nat} {units : List StringUnit} (h : IsHexCode digits n)
    (rest : Units body units) : Units ('\\' :: 'u' :: (digits ++ body)) (.ofCode n :: units)

theorem exists_units {body : List Char} (h : IsBody body) : ∃ units, Units body units := by
  induction h with
  | nil => exact ⟨_, .nil⟩
  | unescaped h _ ih => exact ih.imp' _ fun _ => .unescaped h
  | short h _ ih => exact ih.imp' _ fun _ => .short h
  | code h _ ih => exact ih.imp' _ fun _ => .code h

/-- A string is scanned up to its closing quote. -/
theorem scanString_of_units {body : List Char} {units : List StringUnit} (h : Units body units)
    (rest : List Char) : scanString (body ++ '"' :: rest) = some (units, rest) := by
  induction h with
  | nil => rfl
  | @unescaped c body units h _ ih =>
    obtain ⟨visible, noQuote, noBackslash⟩ := h
    simp [scanString, noBackslash, Char.not_lt.2 visible, ih, consUnit]
  | short h _ ih =>
    obtain ⟨found, other⟩ := escape?_of_mem h
    simp [scanString, other, found, ih, consUnit]
  | code h _ ih =>
    obtain ⟨a, b, c, d, rfl, found⟩ := exists_of_isHexCode h
    simp [scanString, found, ih, consUnit]

/-! ### Characters of a string -/

theorem ofCode_toNat (c : Char) : StringUnit.ofCode c.toNat = .char c := by
  have range : ¬ (0xD800 ≤ c.toNat ∧ c.toNat ≤ 0xDFFF) := by
    have valid := c.valid
    unfold UInt32.isValidChar Nat.isValidChar at valid
    show ¬ (0xD800 ≤ c.val.toNat ∧ c.val.toNat ≤ 0xDFFF)
    omega
  rw [StringUnit.ofCode, if_neg range, Char.ofNat_toNat]

theorem ofCode_surrogate {n : Nat} (h : 0xD800 ≤ n ∧ n < 0xE000) :
    StringUnit.ofCode n = .surrogate n :=
  if_pos ⟨h.1, by omega⟩

/-- Characters that are spelled are those of the units. -/
theorem exists_units_of_bodySpells {body text : List Char} (h : BodySpells body text) :
    ∃ units, Units body units ∧ StringUnit.chars? units = some text := by
  induction h with
  | nil => exact ⟨_, .nil, rfl⟩
  | unescaped h _ ih =>
    obtain ⟨units, rest, chars⟩ := ih
    exact ⟨_, .unescaped h rest, by simp [StringUnit.chars?, chars]⟩
  | short h _ ih =>
    obtain ⟨units, rest, chars⟩ := ih
    exact ⟨_, .short h rest, by simp [StringUnit.chars?, chars]⟩
  | code h _ ih =>
    obtain ⟨units, rest, chars⟩ := ih
    exact ⟨_, .code h rest, by simp [ofCode_toNat, StringUnit.chars?, chars]⟩
  | @pair c high low digits digits' body text h h' isHigh isLow paired _ ih =>
    obtain ⟨units, rest, chars⟩ := ih
    refine ⟨_, .code h (.code h' rest), ?_⟩
    have same : StringUnit.pair? high low = some c := by
      rw [StringUnit.pair?, if_pos ⟨isHigh.2, isLow.1⟩, ← paired, Char.ofNat_toNat]
    rw [ofCode_surrogate ⟨isHigh.1, by omega⟩, ofCode_surrogate ⟨by omega, isLow.2⟩]
    simp [StringUnit.chars?, chars, same]

theorem lt_of_isHexCode {digits : List Char} {n : Nat} (h : IsHexCode digits n) : n < 0x10000 := by
  cases h with
  | digits first second third fourth =>
    have := first.1
    have := second.1
    have := third.1
    have := fourth.1
    omega

theorem toNat_ofNat {n : Nat} (valid : n.isValidChar) : (Char.ofNat n).toNat = n := by
  rw [Char.ofNat, dif_pos valid]
  rfl

/-- The number of a character is that of a code outside the surrogates. -/
theorem toNat_of_ofCode_eq_char {n : Nat} (small : n < 0x10000) {c : Char}
    (h : StringUnit.ofCode n = .char c) : c.toNat = n := by
  unfold StringUnit.ofCode at h
  split_ifs at h with range
  cases h
  refine toNat_ofNat ?_
  unfold Nat.isValidChar
  omega

theorem eq_of_ofCode_eq_surrogate {n code : Nat} (h : StringUnit.ofCode n = .surrogate code) :
    code = n ∧ 0xD800 ≤ n ∧ n < 0xE000 := by
  unfold StringUnit.ofCode at h
  split_ifs at h with range
  cases h
  exact ⟨rfl, range.1, by omega⟩

theorem toNat_of_pair? {high low : Nat} {c : Char} (isHigh : 0xD800 ≤ high) (isLow : low < 0xE000)
    (h : StringUnit.pair? high low = some c) :
    (high < 0xDC00 ∧ 0xDC00 ≤ low) ∧
      c.toNat = 0x10000 + (high - 0xD800) * 0x400 + (low - 0xDC00) := by
  unfold StringUnit.pair? at h
  split_ifs at h with range
  have valid : (0x10000 + (high - 0xD800) * 0x400 + (low - 0xDC00)).isValidChar := by
    unfold Nat.isValidChar
    omega
  rw [← Option.some.inj h, toNat_ofNat valid]
  exact ⟨range, rfl⟩

/-- A surrogate comes from its code. -/
theorem exists_of_units_surrogate {body : List Char} {code : Nat} {units : List StringUnit}
    (h : Units body (.surrogate code :: units)) :
    ∃ digits body', body = '\\' :: 'u' :: (digits ++ body') ∧ IsHexCode digits code ∧
      (0xD800 ≤ code ∧ code < 0xE000) ∧ Units body' units := by
  generalize all : StringUnit.surrogate code :: units = units' at h
  cases h with
  | nil => cases all
  | unescaped h rest => cases all
  | short h rest => cases all
  | code h rest =>
    obtain ⟨same, rfl⟩ := List.cons.inj all
    obtain ⟨rfl, range⟩ := eq_of_ofCode_eq_surrogate same.symm
    exact ⟨_, _, rfl, h, range, rest⟩

/-- Where the units have characters, the string spells them. -/
theorem bodySpells_of_units {body text : List Char} {units : List StringUnit}
    (h : Units body units) (chars : StringUnit.chars? units = some text) :
    BodySpells body text := by
  fun_induction StringUnit.chars? units generalizing body text with
  | case1 =>
    cases chars
    cases h
    exact .nil
  | case2 c units ih =>
    obtain ⟨text, rest, rfl⟩ := Option.map_eq_some_iff.1 chars
    generalize all : StringUnit.char c :: units = units' at h
    cases h with
    | nil => cases all
    | unescaped h behind =>
      cases all
      exact .unescaped h (ih behind rest)
    | short h behind =>
      cases all
      exact .short h (ih behind rest)
    | code h behind =>
      obtain ⟨same, rfl⟩ := List.cons.inj all
      cases toNat_of_ofCode_eq_char (lt_of_isHexCode h) same.symm
      exact .code h (ih behind rest)
  | case3 high low units ih =>
    obtain ⟨c, paired, chars⟩ := Option.bind_eq_some_iff.1 chars
    obtain ⟨text, rest, rfl⟩ := Option.map_eq_some_iff.1 chars
    obtain ⟨digits, body, rfl, hex, isHigh, h⟩ := exists_of_units_surrogate h
    obtain ⟨digits', body, rfl, hex', isLow, behind⟩ := exists_of_units_surrogate h
    obtain ⟨⟨first, second⟩, number⟩ := toNat_of_pair? isHigh.1 isLow.2 paired
    exact .pair hex hex' ⟨isHigh.1, first⟩ ⟨second, isLow.2⟩ number (ih behind rest)
  | case4 => cases chars

theorem scan?_string {cs : List Char} {text : Option String} (h : StringSpells cs text)
    (rest : List Char) : scan? (cs ++ rest) = (string text :: ·) <$> scan? rest := by
  cases h with
  | @text body text h =>
    obtain ⟨units, h, chars⟩ := exists_units_of_bodySpells h
    rw [List.cons_append, List.append_assoc, List.singleton_append,
      scan?_quote (scanString_of_units h rest), chars]
    rfl
  | @none body h silent =>
    obtain ⟨units, h⟩ := exists_units h
    have none : StringUnit.chars? units = none := by
      cases chars : StringUnit.chars? units with
      | none => rfl
      | some text => exact absurd (bodySpells_of_units h chars) (silent text)
    rw [List.cons_append, List.append_assoc, List.singleton_append,
      scan?_quote (scanString_of_units h rest), none]
    rfl

/-! ## Reading words -/

/-- What follows does not go on with a word. -/
def EndsWord (rest : List Char) : Prop := ∀ c, rest.head? = some c → isWordChar c = false

/-- A word is scanned up to its end. -/
theorem scan?_of_word {word : List Char} {token : JsonToken} (filled : word ≠ [])
    (chars : ∀ c ∈ word, isWordChar c) (found : word? word = some token) {rest : List Char}
    (ends : EndsWord rest) : scan? (word ++ rest) = (token :: ·) <$> scan? rest := by
  obtain ⟨c, cs, rfl⟩ := List.exists_cons_of_ne_nil filled
  obtain ⟨first, others⟩ := List.forall_mem_cons.1 chars
  have other {d : Char} (h : isWordChar d = false) : c ≠ d := by
    rintro rfl
    exact Bool.eq_false_iff.1 h first
  have visible : ¬ isBlank c := by
    simp [isBlank, other (d := ' ') rfl, other (d := '\t') rfl, other (d := '\n') rfl,
      other (d := '\r') rfl]
  have noMark : punctuation? c = none := by
    unfold punctuation?
    split <;> first | rfl | exact absurd rfl (other rfl)
  have behind : rest.takeWhile isWordChar = [] ∧ rest.dropWhile isWordChar = rest := by
    cases rest with
    | nil => exact ⟨rfl, rfl⟩
    | cons d rest =>
      have apart : ¬ isWordChar d := Bool.eq_false_iff.1 (ends d rfl)
      exact ⟨List.takeWhile_cons_of_neg apart, List.dropWhile_cons_of_neg apart⟩
  rw [List.cons_append, scan?_word visible (other rfl) noMark,
    List.takeWhile_append_of_pos others, List.dropWhile_append_of_pos others, behind.1, behind.2,
    List.append_nil, found, Option.bind_some]

/-! ### Numbers -/

theorem digits?_append {ds rest : List Char} (h : IsDigits ds)
    (apart : ∀ c, rest.head? = some c → c.isDigit = false) : digits? (ds ++ rest) = some rest := by
  obtain ⟨filled, digits⟩ := h
  obtain ⟨c, cs, rfl⟩ := List.exists_cons_of_ne_nil filled
  obtain ⟨first, others⟩ := List.forall_mem_cons.1 digits
  have behind : rest.dropWhile Char.isDigit = rest := by
    cases rest with
    | nil => rfl
    | cons d rest => exact List.dropWhile_cons_of_neg (Bool.eq_false_iff.1 (apart d rfl))
  rw [List.cons_append, digits?, if_pos first, List.dropWhile_append_of_pos others, behind]

theorem isDigit_ne {c d : Char} (digit : c.isDigit) (other : d.isDigit = false) : c ≠ d := by
  rintro rfl
  exact Bool.eq_false_iff.1 other digit

theorem exponent?_of_digits {e : Char} {sign ds : List Char} (he : e = 'e' ∨ e = 'E')
    (hs : sign = [] ∨ sign = ['+'] ∨ sign = ['-']) (h : IsDigits ds) :
    exponent? (e :: (sign ++ ds)) = some [] := by
  have scanned : digits? (ds ++ []) = some [] := digits?_append h (by simp)
  rw [List.append_nil] at scanned
  rcases hs with rfl | rfl | rfl
  · obtain ⟨c, cs, rfl⟩ := List.exists_cons_of_ne_nil h.1
    have digit : c.isDigit := h.2 c List.mem_cons_self
    simp [exponent?, he, isDigit_ne digit (d := '+') rfl, isDigit_ne digit (d := '-') rfl, scanned]
  · simp [exponent?, he, scanned]
  · simp [exponent?, he, scanned]

section Numerals

variable {sign whole fraction exponent : List Char}

theorem exists_digit_of_isNumeral (h : IsNumeral sign whole fraction exponent) :
    ∃ c cs, whole = c :: cs ∧ c.isDigit := by
  rcases h.whole with rfl | ⟨⟨filled, digits⟩, -⟩
  · exact ⟨_, _, rfl, rfl⟩
  · obtain ⟨c, cs, rfl⟩ := List.exists_cons_of_ne_nil filled
    exact ⟨c, cs, rfl, digits c List.mem_cons_self⟩

theorem isNumber_of_isNumeral (h : IsNumeral sign whole fraction exponent) :
    isNumber (sign ++ whole ++ fraction ++ exponent) := by
  have exponentEnds : ∀ c, exponent.head? = some c → c.isDigit = false ∧ c ≠ '.' := by
    rcases h.exponent with rfl | ⟨e, _, ds, rfl | rfl, -, -, rfl⟩ <;> simp
  have fractionEnds : ∀ c, (fraction ++ exponent).head? = some c → c.isDigit = false := by
    rcases h.fraction with rfl | ⟨ds, -, rfl⟩
    · exact fun c head => (exponentEnds c head).1
    · simp
  have last : exponent? exponent = some [] := by
    rcases h.exponent with rfl | ⟨e, _, ds, he, hs, digits, rfl⟩
    · rfl
    · exact exponent?_of_digits he hs digits
  have middle : fraction? (fraction ++ exponent) = some exponent := by
    rcases h.fraction with rfl | ⟨ds, digits, rfl⟩
    · cases exponent with
      | nil => rfl
      | cons c cs =>
        have noPoint : c ≠ '.' := (exponentEnds c rfl).2
        simp [fraction?, noPoint]
    · exact digits?_append digits fun c head => (exponentEnds c head).1
  have first : whole? (whole ++ (fraction ++ exponent)) = some (fraction ++ exponent) := by
    rcases h.whole with rfl | ⟨digits, noZero⟩
    · rfl
    · obtain ⟨c, cs, rfl⟩ := List.exists_cons_of_ne_nil digits.1
      have other : c ≠ '0' := fun same => noZero (congrArg some same)
      rw [List.cons_append, whole?, ← List.cons_append, digits?_append digits fractionEnds]
      simpa using other
  have unsigned : (whole? (whole ++ (fraction ++ exponent)) >>= fraction? >>= exponent?)
      = some [] := by
    simp [first, middle, last]
  rcases h.sign with rfl | rfl
  · obtain ⟨c, cs, rfl, digit⟩ := exists_digit_of_isNumeral h
    have noSign : c ≠ '-' := isDigit_ne digit rfl
    simpa [isNumber, noSign] using unsigned
  · simpa [isNumber] using unsigned

theorem isWordChar_of_isDigit {c : Char} (digit : c.isDigit) : isWordChar c := by
  simp [isWordChar, Char.isAlphanum, digit]

theorem isWordChar_of_isNumeral (h : IsNumeral sign whole fraction exponent) :
    ∀ c ∈ sign ++ whole ++ fraction ++ exponent, isWordChar c := by
  have signed : ∀ c ∈ sign, isWordChar c := by
    rcases h.sign with rfl | rfl <;> simp [isWordChar]
  have first : ∀ c ∈ whole, isWordChar c := by
    rcases h.whole with rfl | ⟨⟨-, digits⟩, -⟩
    · simp [isWordChar]
    · exact fun c mem => isWordChar_of_isDigit (digits c mem)
  have middle : ∀ c ∈ fraction, isWordChar c := by
    rcases h.fraction with rfl | ⟨ds, ⟨-, digits⟩, rfl⟩
    · simp
    · exact List.forall_mem_cons.2 ⟨rfl, fun c mem => isWordChar_of_isDigit (digits c mem)⟩
  have last : ∀ c ∈ exponent, isWordChar c := by
    rcases h.exponent with rfl | ⟨e, sign', ds, he, hs, ⟨-, digits⟩, rfl⟩
    · simp
    · refine List.forall_mem_cons.2 ⟨by rcases he with rfl | rfl <;> rfl, ?_⟩
      refine List.forall_mem_append.2 ⟨?_, fun c mem => isWordChar_of_isDigit (digits c mem)⟩
      rcases hs with rfl | rfl | rfl <;> simp [isWordChar]
  simp only [List.forall_mem_append]
  exact ⟨⟨⟨signed, first⟩, middle⟩, last⟩

theorem word?_of_isNumeral (h : IsNumeral sign whole fraction exponent) :
    word? (sign ++ whole ++ fraction ++ exponent) =
      some (number (.ofList (sign ++ whole ++ fraction ++ exponent))) := by
  have isNumber := isNumber_of_isNumeral h
  generalize sign ++ whole ++ fraction ++ exponent = word at isNumber ⊢
  have other {name : List Char} (noNumber : JsonToken.isNumber name = false) : word ≠ name := by
    rintro rfl
    exact Bool.eq_false_iff.1 noNumber isNumber
  rw [word?, if_neg (other rfl), if_neg (other rfl), if_neg (other rfl), if_pos isNumber]

end Numerals

/-! ## Reading marks and blanks -/

theorem scan?_blanks {cs : List Char} (h : IsBlanks cs) (rest : List Char) :
    scan? (cs ++ rest) = scan? rest := by
  induction cs with
  | nil => rfl
  | cons c cs ih =>
    obtain ⟨first, others⟩ := List.forall_mem_cons.1 h
    have blank : isBlank c := by simpa [isBlank, or_assoc] using first
    rw [List.cons_append, scan?_blank blank, ih others]

theorem scan?_mark {c : Char} {token : JsonToken} (found : punctuation? c = some token)
    {mark : List Char} (h : IsMark c mark) (rest : List Char) :
    scan? (mark ++ rest) = (token :: ·) <$> scan? rest := by
  have visible : ¬ isBlank c ∧ c ≠ '"' := by
    unfold punctuation? at found
    split at found <;> first | decide | cases found
  cases h with
  | blanks h h' =>
    rw [List.append_assoc, scan?_blanks h, List.cons_append,
      scan?_punctuation visible.1 visible.2 found, scan?_blanks h']

theorem endsWord_of_isBlanks {cs : List Char} (h : IsBlanks cs) : EndsWord cs := by
  intro c head
  have mem := h c (List.mem_of_mem_head? head)
  have each : [' ', '\t', '\n', '\r'].all fun c => !isWordChar c := rfl
  simpa using List.all_eq_true.1 each c mem

theorem EndsWord.append {cs rest : List Char} (h : EndsWord cs) (h' : EndsWord rest) :
    EndsWord (cs ++ rest) := by
  cases cs with
  | nil => exact h'
  | cons c cs => exact h

theorem endsWord_of_isMark {c : Char} (noWord : isWordChar c = false) {mark : List Char}
    (h : IsMark c mark) (rest : List Char) : EndsWord (mark ++ rest) := by
  cases h with
  | blanks h h' =>
    rw [List.append_assoc]
    refine (endsWord_of_isBlanks h).append ?_
    rintro d ⟨⟩
    exact noWord

end JsonToken

/-! ## Reading values -/

namespace JsonValue

open JsonToken Builder

/-- The state after the tokens of some characters. -/
def readFrom (b : Builder) (cs : List Char) : Option Builder :=
  (scan? cs).bind (·.foldlM step b)

theorem readFrom_of_scan? {cs rest : List Char} {token : JsonToken}
    (h : scan? (cs ++ rest) = (token :: ·) <$> scan? rest) (b : Builder) :
    readFrom b (cs ++ rest) = (step b token).bind (readFrom · rest) := by
  unfold readFrom
  rw [h]
  cases scan? rest with
  | none => cases step b token <;> rfl
  | some tokens => rfl

/-- A value can come next. -/
def AwaitsValue (a : Awaiting) : Prop := a = .value ∨ a = .itemOrEnd

/-- A key can come next. -/
def AwaitsKey (a : Awaiting) : Prop := a = .key ∨ a = .keyOrEnd

theorem step_of_awaitsValue {a : Awaiting} (h : AwaitsValue a) {token : JsonToken}
    (goesOn : token ≠ .closeBracket) (stack : List Open) :
    step (.reading a stack) token = start stack token := by
  rcases h with rfl | rfl
  · rfl
  · unfold step
    split <;> simp_all

theorem step_of_awaitsKey {a : Awaiting} (h : AwaitsKey a) (key : Option String)
    (before : List (Option String × JsonValue)) (stack : List Open) :
    step (.reading a (.object before :: stack)) (.string key) =
      some (.reading .colon (.member key before :: stack)) := by
  rcases h with rfl | rfl
  · rfl
  · cases before <;> rfl

/-- What reading a piece of text comes to. -/
def Reads (cs : List Char) : JsonPart → Prop
  | .value v => ∀ {a stack rest}, AwaitsValue a → EndsWord rest →
    readFrom (.reading a stack) (cs ++ rest) = (complete v stack).bind (readFrom · rest)
  | .items vs => ∀ {a before stack rest}, AwaitsValue a → EndsWord rest →
    readFrom (.reading a (.array before :: stack)) (cs ++ rest) =
      readFrom (.reading .commaOrEnd (.array (vs.reverse ++ before) :: stack)) rest
  | .members ms => ∀ {a before stack rest}, AwaitsKey a → EndsWord rest →
    readFrom (.reading a (.object before :: stack)) (cs ++ rest) =
      readFrom (.reading .commaOrEnd (.object (ms.reverse ++ before) :: stack)) rest

theorem reads_of_word {word : List Char} {token : JsonToken} {v : JsonValue} (filled : word ≠ [])
    (chars : ∀ c ∈ word, isWordChar c) (found : word? word = some token)
    (starts : ∀ stack, start stack token = complete v stack) : Reads word (.value v) := by
  intro a stack rest awaits ends
  have goesOn : token ≠ .closeBracket := by
    rintro rfl
    unfold word? at found
    split_ifs at found <;> cases found
  rw [readFrom_of_scan? (scan?_of_word filled chars found ends), step_of_awaitsValue awaits goesOn,
    starts]

theorem readFrom_mark {c : Char} {token : JsonToken} (found : punctuation? c = some token)
    {mark : List Char} (h : IsMark c mark) (b : Builder) (rest : List Char) :
    readFrom b (mark ++ rest) = (step b token).bind (readFrom · rest) :=
  readFrom_of_scan? (scan?_mark found h rest) b

/-- The mark with which an array or an object begins. -/
theorem readFrom_opening {c : Char} {token : JsonToken} (found : punctuation? c = some token)
    (goesOn : token ≠ .closeBracket) {opening : List Char} (h : IsMark c opening) {a : Awaiting}
    (awaits : AwaitsValue a) (stack : List Open) (rest : List Char) :
    readFrom (.reading a stack) (opening ++ rest) =
      (start stack token).bind (readFrom · rest) := by
  rw [readFrom_mark found h, step_of_awaitsValue awaits goesOn]

/-- A member up to its value. -/
theorem readFrom_key {key colon : List Char} {k : Option String} (hk : StringSpells key k)
    (mark : IsMark ':' colon) {a : Awaiting} (awaits : AwaitsKey a)
    (before : List (Option String × JsonValue)) (stack : List Open) (rest : List Char) :
    readFrom (.reading a (.object before :: stack)) (key ++ (colon ++ rest)) =
      readFrom (.reading .value (.member k before :: stack)) rest := by
  rw [readFrom_of_scan? (scan?_string hk _), step_of_awaitsKey awaits, Option.bind_some,
    readFrom_mark rfl mark]
  rfl

/-- What a piece of text spells is what it is read as. -/
theorem reads_of_partSpells {cs : List Char} {part : JsonPart} (h : PartSpells cs part) :
    Reads cs part := by
  induction h with
  | null => exact reads_of_word (List.cons_ne_nil _ _) (List.all_eq_true.1 rfl) rfl fun _ => rfl
  | true => exact reads_of_word (List.cons_ne_nil _ _) (List.all_eq_true.1 rfl) rfl fun _ => rfl
  | false => exact reads_of_word (List.cons_ne_nil _ _) (List.all_eq_true.1 rfl) rfl fun _ => rfl
  | number h =>
    refine reads_of_word ?_ (isWordChar_of_isNumeral h) (word?_of_isNumeral h) fun _ => rfl
    obtain ⟨c, cs, rfl, -⟩ := exists_digit_of_isNumeral h
    simp
  | @string cs text h =>
    intro a stack rest awaits _
    have goesOn : JsonToken.string text ≠ .closeBracket := nofun
    rw [readFrom_of_scan? (scan?_string h rest), step_of_awaitsValue awaits goesOn]
    rfl
  | emptyArray h h' =>
    intro a stack rest awaits _
    rw [List.append_assoc, readFrom_opening rfl (by decide) h awaits, start, Option.bind_some,
      readFrom_mark rfl h']
    rfl
  | @array opening cs closing vs h _ h' ih =>
    intro a stack rest awaits _
    rw [List.append_assoc, List.append_assoc, readFrom_opening rfl (by decide) h awaits, start,
      Option.bind_some, ih (.inr rfl) (endsWord_of_isMark rfl h' rest), readFrom_mark rfl h', step,
      List.append_nil, List.reverse_reverse]
  | emptyObject h h' =>
    intro a stack rest awaits _
    rw [List.append_assoc, readFrom_opening rfl (by decide) h awaits, start, Option.bind_some,
      readFrom_mark rfl h']
    rfl
  | @object opening cs closing ms h _ h' ih =>
    intro a stack rest awaits _
    rw [List.append_assoc, List.append_assoc, readFrom_opening rfl (by decide) h awaits, start,
      Option.bind_some, ih (.inr rfl) (endsWord_of_isMark rfl h' rest), readFrom_mark rfl h', step,
      List.append_nil, List.reverse_reverse]
  | item _ ih =>
    intro a before stack rest awaits ends
    rw [ih awaits ends]
    rfl
  | @moreItems cs comma cs' v vs _ mark _ ih ih' =>
    intro a before stack rest awaits ends
    rw [List.append_assoc, List.append_assoc, ih awaits (endsWord_of_isMark rfl mark _), complete,
      Option.bind_some, readFrom_mark rfl mark, step, Option.bind_some, ih' (.inl rfl) ends,
      List.reverse_cons, List.append_assoc, List.singleton_append]
  | @member key colon cs k v hk mark _ ih =>
    intro a before stack rest awaits ends
    rw [List.append_assoc, List.append_assoc, readFrom_key hk mark awaits, ih (.inl rfl) ends]
    rfl
  | @moreMembers key colon cs comma cs' k v ms hk mark _ mark' _ ih ih' =>
    intro a before stack rest awaits ends
    simp only [List.append_assoc]
    rw [readFrom_key hk mark awaits, ih (.inl rfl) (endsWord_of_isMark rfl mark' _), complete,
      Option.bind_some, readFrom_mark rfl mark', step, Option.bind_some, ih' (.inl rfl) ends,
      List.reverse_cons, List.append_assoc, List.singleton_append]

/-- A text that spells a value is read as that value. -/
theorem ofText?_of_spelledBy {v : JsonValue} {text : String} (h : v.SpelledBy text) :
    ofText? text = some v := by
  cases h with
  | @blanks before cs after h inner h' =>
    have read : readFrom (.reading .value []) (cs ++ after) =
        (complete v []).bind (readFrom · after) :=
      reads_of_partSpells inner (.inl rfl) (endsWord_of_isBlanks h')
    have final : readFrom (.done v) after = some (.done v) := by
      have none := scan?_blanks h' []
      rw [List.append_nil] at none
      rw [readFrom, none, scan?_nil]
      rfl
    rw [complete, Option.bind_some, final] at read
    obtain ⟨tokens, scanned, built⟩ := Option.bind_eq_some_iff.1 read
    rw [ofText?, String.toList_ofList, List.append_assoc, scan?_blanks h, scanned]
    change ofTokens? tokens = some v
    rw [ofTokens?, built]

end JsonValue

end WireCodec
