import Betweenness.Json.Reader
import Mathlib.Data.List.Basic

/-!
# The grammar of JSON texts

What a JSON text looks like, said without the machines that read one: which characters are a
number, which are a text in quotes, how tokens are spelled, and which tokens a value consists of.
A text spells a value if it is made of the value's tokens, with any blanks in front of, between and
behind them.

The characters of a text in quotes are given as pieces, each a character or a code unit. Two code
units that follow one another may be the halves of a surrogate pair, so that pieces have to be put
together (`decode`); a half that stands alone makes that impossible.

## Main definitions

* `IsNumeral`: the characters of a number.
* `Quoted`, `decode`: the characters between quotes, and the text that they stand for.
* `Lexeme`, `Spelling`: the spellings of a token and of a list of tokens.
* `tokens`: the tokens of a value.
* `Spells`: a text spells a value.
-/

namespace Betweenness.Json

/-! ### Numbers -/

/-- Digits, one at least. -/
def IsDigits (cs : List Char) : Prop := cs ≠ [] ∧ ∀ c ∈ cs, c.isDigit = true

/-- The digits in front of a point: no zero in front of others. -/
inductive IsWholePart : List Char → Prop
  | zero : IsWholePart ['0']
  | digits {cs : List Char} (h : IsDigits cs) (hzero : cs.head? ≠ some '0') : IsWholePart cs

/-- A point and the digits behind it, or nothing. -/
inductive IsFractionPart : List Char → Prop
  | absent : IsFractionPart []
  | present {ds : List Char} (h : IsDigits ds) : IsFractionPart ('.' :: ds)

/-- An exponent with its mark and perhaps a sign, or nothing. -/
inductive IsExponentPart : List Char → Prop
  | absent : IsExponentPart []
  | present {mark : Char} {sign ds : List Char} (hmark : mark = 'e' ∨ mark = 'E')
      (hsign : sign = [] ∨ sign = ['+'] ∨ sign = ['-']) (h : IsDigits ds) :
      IsExponentPart (mark :: (sign ++ ds))

/-- A number without a sign. -/
inductive IsUnsignedNumeral : List Char → Prop
  | mk {whole fraction exponent : List Char} (hwhole : IsWholePart whole)
      (hfraction : IsFractionPart fraction) (hexponent : IsExponentPart exponent) :
      IsUnsignedNumeral (whole ++ (fraction ++ exponent))

/-- A number. -/
inductive IsNumeral : List Char → Prop
  | positive {cs : List Char} (h : IsUnsignedNumeral cs) : IsNumeral cs
  | negative {cs : List Char} (h : IsUnsignedNumeral cs) : IsNumeral ('-' :: cs)

/-! ### Texts in quotes -/

/-- What a text in quotes is made of. -/
inductive Piece where
  /-- A character, by itself or by an escape of one letter. -/
  | char (c : Char)
  /-- A code unit, by an escape of four digits. -/
  | unit (u : ℕ)

/-- Whether a code unit is the first half of a surrogate pair. -/
def IsHighHalf (u : ℕ) : Prop := 0xD800 ≤ u ∧ u < 0xDC00

/-- Whether a code unit is the second half of a surrogate pair. -/
def IsLowHalf (u : ℕ) : Prop := 0xDC00 ≤ u ∧ u < 0xE000

instance (u : ℕ) : Decidable (IsHighHalf u) := inferInstanceAs (Decidable (_ ∧ _))

instance (u : ℕ) : Decidable (IsLowHalf u) := inferInstanceAs (Decidable (_ ∧ _))

/-- The characters that pieces stand for, unless half of a surrogate pair stands alone. -/
def decode : List Piece → Option (List Char)
  | [] => some []
  | .char c :: pieces => (decode pieces).map (c :: ·)
  | .unit u :: pieces =>
    if IsLowHalf u then none
    else if IsHighHalf u then
      match pieces with
      | .unit v :: pieces =>
        if IsLowHalf v then (decode pieces).map (Char.ofNat (Content.pairValue u v) :: ·) else none
      | _ => none
    else (decode pieces).map (Char.ofNat u :: ·)

/-- The value of hexadecimal digits behind a value. -/
def hexNumber? (value : ℕ) : List Char → Option ℕ
  | [] => some value
  | c :: cs => do hexNumber? (value * 16 + (← hexValue? c)) cs

/-- The characters between quotes, and the pieces that they are. -/
inductive Quoted : List Piece → List Char → Prop
  | nil : Quoted [] []
  | plain {c : Char} {pieces : List Piece} {cs : List Char} (hquote : c ≠ '"') (hescape : c ≠ '\\')
      (hcontrol : 0x20 ≤ c.toNat) (h : Quoted pieces cs) : Quoted (.char c :: pieces) (c :: cs)
  | letter {e c : Char} {pieces : List Piece} {cs : List Char} (he : escaped? e = some c)
      (h : Quoted pieces cs) : Quoted (.char c :: pieces) ('\\' :: e :: cs)
  | unit {digits : List Char} {u : ℕ} {pieces : List Piece} {cs : List Char}
      (hlength : digits.length = 4) (hu : hexNumber? 0 digits = some u) (h : Quoted pieces cs) :
      Quoted (.unit u :: pieces) ('\\' :: 'u' :: (digits ++ cs))

/-! ### Tokens -/

/-- The ways to write a token. -/
inductive Lexeme : Token → List Char → Prop
  | openBrace : Lexeme .openBrace ['\x7b']
  | closeBrace : Lexeme .closeBrace ['\x7d']
  | openBracket : Lexeme .openBracket ['[']
  | closeBracket : Lexeme .closeBracket [']']
  | comma : Lexeme .comma [',']
  | colon : Lexeme .colon [':']
  | null : Lexeme .null ['n', 'u', 'l', 'l']
  | boolTrue : Lexeme (.bool true) ['t', 'r', 'u', 'e']
  | boolFalse : Lexeme (.bool false) ['f', 'a', 'l', 's', 'e']
  | number {cs : List Char} (h : IsNumeral cs) : Lexeme (.number (String.ofList cs)) cs
  | text {pieces : List Piece} {cs : List Char} (h : Quoted pieces cs) :
      Lexeme (.text ((decode pieces).map String.ofList)) ('"' :: (cs ++ ['"']))

/-- The ways to write tokens one after another, with blanks anywhere but inside of them. -/
inductive Spelling : List Token → List Char → Prop
  | nil : Spelling [] []
  | blank {c : Char} {tokens : List Token} {cs : List Char} (hc : isBlank c = true)
      (h : Spelling tokens cs) : Spelling tokens (c :: cs)
  | token {t : Token} {lexeme : List Char} {tokens : List Token} {cs : List Char}
      (ht : Lexeme t lexeme) (h : Spelling tokens cs) : Spelling (t :: tokens) (lexeme ++ cs)

/-! ### Values -/

/-- Lists of tokens with a comma between any two. -/
def withCommas (parts : List (List Token)) : List Token := [Token.comma].intercalate parts

mutual

/-- The tokens of a value. -/
def tokens : Json → List Token
  | null => [.null]
  | bool b => [.bool b]
  | number lexeme => [.number lexeme]
  | text content => [.text content]
  | array items => .openBracket :: (withCommas (itemTokens items) ++ [.closeBracket])
  | object members => .openBrace :: (withCommas (memberTokens members) ++ [.closeBrace])

/-- The tokens of each item of an array. -/
def itemTokens : List Json → List (List Token)
  | [] => []
  | v :: vs => tokens v :: itemTokens vs

/-- The tokens of each member of an object. -/
def memberTokens : List (Option String × Json) → List (List Token)
  | [] => []
  | (key, v) :: ms => (.text key :: .colon :: tokens v) :: memberTokens ms

end

/-- A text spells a value if it is made of the tokens of the value. -/
def Spells (text : String) (v : Json) : Prop := Spelling v.tokens text.toList

end Betweenness.Json
