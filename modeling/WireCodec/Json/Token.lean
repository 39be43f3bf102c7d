/-!
# JSON tokens

A JSON text is a sequence of tokens with blanks between them. Punctuation is one character, a string
runs to its closing quote, and anything else is a word: a literal name or a number.

An escape can name a surrogate, which is no character by itself. Two escapes in a row that form a
pair name one character; a string with any other surrogate is well formed, but it has no text.
-/

namespace WireCodec

/-- An element of a JSON text. -/
inductive JsonToken
  | openBrace
  | closeBrace
  | openBracket
  | closeBracket
  | comma
  | colon
  | null
  | bool (b : Bool)
  | number (literal : String)
  | string (text : Option String)
  deriving DecidableEq, Repr

/-- What one character or one escape contributes to a string. -/
inductive StringUnit
  | char (c : Char)
  | surrogate (code : Nat)
  deriving DecidableEq, Repr

namespace StringUnit

/-- The unit of a sixteen-bit code. -/
def ofCode (code : Nat) : StringUnit :=
  if 0xD800 ≤ code ∧ code ≤ 0xDFFF then surrogate code else char (.ofNat code)

/-- The character of a high surrogate and a low one behind it. -/
def pair? (high low : Nat) : Option Char :=
  if high < 0xDC00 ∧ 0xDC00 ≤ low then
    some (.ofNat (0x10000 + (high - 0xD800) * 0x400 + (low - 0xDC00)))
  else none

/-- The characters of a string, unless a surrogate is left unpaired. -/
def chars? : List StringUnit → Option (List Char)
  | [] => some []
  | char c :: rest => (c :: ·) <$> chars? rest
  | surrogate high :: surrogate low :: rest => do
    let c ← pair? high low
    (c :: ·) <$> chars? rest
  | surrogate _ :: _ => none

end StringUnit

namespace JsonToken

def isBlank (c : Char) : Bool := c == ' ' || c == '\t' || c == '\n' || c == '\r'

/-- The token of a character that is one by itself. -/
def punctuation? : Char → Option JsonToken
  | '\x7b' => some openBrace
  | '\x7d' => some closeBrace
  | '[' => some openBracket
  | ']' => some closeBracket
  | ',' => some comma
  | ':' => some colon
  | _ => none

/-! ## Strings -/

/-- The value of a hexadecimal digit. -/
def hexDigit? (c : Char) : Option Nat :=
  if c.isDigit then some (c.toNat - '0'.toNat)
  else if 'a' ≤ c ∧ c ≤ 'f' then some (c.toNat - 'a'.toNat + 10)
  else if 'A' ≤ c ∧ c ≤ 'F' then some (c.toNat - 'A'.toNat + 10)
  else none

/-- The number spelled by four hexadecimal digits. -/
def hexCode? (a b c d : Char) : Option Nat :=
  [a, b, c, d].foldlM (fun n digit => (16 * n + ·) <$> hexDigit? digit) 0

/-- The character of an escape of one letter. -/
def escape? : Char → Option Char
  | '"' => some '"'
  | '\\' => some '\\'
  | '/' => some '/'
  | 'b' => some '\x08'
  | 'f' => some '\x0c'
  | 'n' => some '\n'
  | 'r' => some '\r'
  | 't' => some '\t'
  | _ => none

/-- Puts a unit in front of those that were scanned behind it. -/
def consUnit (unit : StringUnit) (scanned : Option (List StringUnit × List Char)) :
    Option (List StringUnit × List Char) :=
  scanned.map fun (units, rest) => (unit :: units, rest)

/-- The units of a string up to its closing quote, and what stands behind that quote. -/
def scanString : List Char → Option (List StringUnit × List Char)
  | [] => none
  | '"' :: rest => some ([], rest)
  | '\\' :: 'u' :: a :: b :: c :: d :: rest =>
    match hexCode? a b c d with
    | some code => consUnit (.ofCode code) (scanString rest)
    | none => none
  | '\\' :: letter :: rest =>
    match escape? letter with
    | some c => consUnit (.char c) (scanString rest)
    | none => none
  | c :: rest => if c < ' ' then none else consUnit (.char c) (scanString rest)

theorem exists_of_consUnit {unit : StringUnit} {scanned : Option (List StringUnit × List Char)}
    {units : List StringUnit} {rest : List Char} (h : consUnit unit scanned = some (units, rest)) :
    ∃ behind, scanned = some (behind, rest) ∧ units = unit :: behind := by
  obtain ⟨⟨behind, rest'⟩, hs, hr⟩ := Option.map_eq_some_iff.1 h
  cases hr
  exact ⟨behind, hs, rfl⟩

theorem length_lt_of_scanString {cs rest : List Char} {units : List StringUnit}
    (h : scanString cs = some (units, rest)) : rest.length < cs.length := by
  fun_induction scanString cs generalizing units rest with
  | case1 => simp at h
  | case2 => simp_all
  | case3 a b c d rest code _ ih =>
    obtain ⟨behind, hs, -⟩ := exists_of_consUnit h
    have := ih hs
    simp only [List.length_cons]
    omega
  | case4 => simp at h
  | case5 letter rest _ c _ ih =>
    obtain ⟨behind, hs, -⟩ := exists_of_consUnit h
    have := ih hs
    simp only [List.length_cons]
    omega
  | case6 => simp at h
  | case7 => simp at h
  | case8 c rest _ _ _ _ ih =>
    obtain ⟨behind, hs, -⟩ := exists_of_consUnit h
    exact Nat.lt_succ_of_lt (ih hs)

/-! ## Words -/

/-- The characters of which words are made. -/
def isWordChar (c : Char) : Bool := c.isAlphanum || c == '+' || c == '-' || c == '.'

/-- What is left behind a run of digits, which must not be empty. -/
def digits? : List Char → Option (List Char)
  | c :: rest => if c.isDigit then some (rest.dropWhile Char.isDigit) else none
  | [] => none

/-- What is left behind the whole part: a zero, or digits that do not start with one. -/
def whole? : List Char → Option (List Char)
  | '0' :: rest => some rest
  | cs => digits? cs

/-- What is left behind a fraction, if there is one. -/
def fraction? : List Char → Option (List Char)
  | '.' :: rest => digits? rest
  | cs => some cs

/-- What is left behind an exponent, if there is one. -/
def exponent? : List Char → Option (List Char)
  | c :: rest =>
    if c = 'e' ∨ c = 'E' then
      match rest with
      | '+' :: rest => digits? rest
      | '-' :: rest => digits? rest
      | rest => digits? rest
    else some (c :: rest)
  | [] => some []

/-- A number: an optional sign, a whole part, and optionally a fraction and an exponent. -/
def isNumber (word : List Char) : Bool :=
  let unsigned := match word with
    | '-' :: rest => rest
    | cs => cs
  (whole? unsigned >>= fraction? >>= exponent?) == some []

/-- The token of a word. -/
def word? (word : List Char) : Option JsonToken :=
  if word = ['n', 'u', 'l', 'l'] then some null
  else if word = ['t', 'r', 'u', 'e'] then some (bool true)
  else if word = ['f', 'a', 'l', 's', 'e'] then some (bool false)
  else if isNumber word then some (number (.ofList word))
  else none

/-! ## Texts -/

/-- The tokens of a text. -/
def scan? : List Char → Option (List JsonToken)
  | [] => some []
  | c :: rest =>
    if isBlank c then scan? rest
    else if c = '"' then
      match h : scanString rest with
      | none => none
      | some (units, rest') =>
        have := length_lt_of_scanString h
        (string (String.ofList <$> StringUnit.chars? units) :: ·) <$> scan? rest'
    else
      match punctuation? c with
      | some token => (token :: ·) <$> scan? rest
      | none => do
        let token ← word? (c :: rest.takeWhile isWordChar)
        have := (List.dropWhile_sublist isWordChar (l := rest)).length_le
        (token :: ·) <$> scan? (rest.dropWhile isWordChar)
termination_by cs => cs.length

theorem scan?_nil : scan? [] = some [] := by rw [scan?]

end JsonToken

end WireCodec
