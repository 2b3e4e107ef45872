import Betweenness.Json.Basic

/-!
# Reading JSON

`Json.read` reads a text in two passes: `Token.scan` cuts it into tokens, and `ofTokens?` puts the
tokens together. Both are machines that read one thing at a time.
-/

namespace Betweenness.Json

/-! ## Tokens of JSON texts

`Token.scan` cuts a text into tokens. It is a machine that reads one character at a time: between
tokens, or inside a word, a number or a text. Words and numbers end where a character comes that
cannot belong to them; that character is then read as one between tokens.

A number is first collected from all characters that occur in numbers and then checked against
the grammar (`isNumber`), which comes to the same: where a number stops being one, no other token
can start. -/

/-- A token of a JSON text. -/
inductive Token where
  | openBrace
  | closeBrace
  | openBracket
  | closeBracket
  | comma
  | colon
  | null
  | bool (value : Bool)
  | number (lexeme : String)
  | text (content : Option String)
  deriving DecidableEq, Repr

/-! ### Numbers and words -/

/-- Whether a character occurs in numbers. -/
def isNumberChar (c : Char) : Bool := c.isDigit || c ∈ ['+', '-', '.', 'e', 'E']

/-- Whether the characters are an exponent, or nothing. -/
def isExponent : List Char → Bool
  | [] => true
  | e :: rest =>
    let digits := match rest with
      | '+' :: digits | '-' :: digits => digits
      | digits => digits
    (e = 'e' || e = 'E') && !digits.isEmpty && digits.all Char.isDigit

/-- Whether the characters are a fraction and an exponent, both of which may be missing. -/
def isFraction : List Char → Bool
  | '.' :: rest =>
    (rest.head?.any Char.isDigit) && isExponent (rest.dropWhile Char.isDigit)
  | cs => isExponent cs

/-- Whether the characters are a number without sign: no zero in front of other digits. -/
def isUnsigned : List Char → Bool
  | '0' :: rest => isFraction rest
  | c :: rest => c.isDigit && isFraction (rest.dropWhile Char.isDigit)
  | [] => false

/-- Whether the characters are a number. -/
def isNumber : List Char → Bool
  | '-' :: rest => isUnsigned rest
  | cs => isUnsigned cs

/-- The token of a number. -/
def Token.ofNumber? (cs : List Char) : Option Token :=
  if isNumber cs then some (.number (String.ofList cs)) else none

/-- The token of a word. -/
def Token.ofWord? (cs : List Char) : Option Token :=
  match String.ofList cs with
  | "null" => some .null
  | "true" => some (.bool true)
  | "false" => some (.bool false)
  | _ => none

/-! ### Texts -/

/-- A text as far as it has been read. -/
structure Content where
  /-- The characters, the last one first. -/
  chars : List Char := []
  /-- The first half of a surrogate pair, if one was read last. -/
  half : Option Nat := none
  /-- Whether a half of a surrogate pair stands alone. -/
  broken : Bool := false

namespace Content

/-- Read a character. -/
def push (t : Content) (c : Char) : Content :=
  { chars := c :: t.chars, broken := t.broken || t.half.isSome }

/-- The code point of a surrogate pair. -/
def pairValue (high low : Nat) : Nat := 0x10000 + (high - 0xD800) * 0x400 + (low - 0xDC00)

/-- Read a UTF-16 code unit that is named by an escape. -/
def pushUnit (t : Content) (u : Nat) : Content :=
  if 0xDC00 ≤ u ∧ u < 0xE000 then
    match t.half with
    | some high => { t with chars := Char.ofNat (pairValue high u) :: t.chars, half := none }
    | none => { t with broken := true }
  else if 0xD800 ≤ u ∧ u < 0xDC00 then
    { t with half := some u, broken := t.broken || t.half.isSome }
  else t.push (Char.ofNat u)

/-- The text that has been read. -/
def close (t : Content) : Option String :=
  if t.broken || t.half.isSome then none else some (String.ofList t.chars.reverse)

end Content

/-- The character that a one-letter escape stands for. -/
def escaped? : Char → Option Char
  | '"' => some '"'
  | '\\' => some '\\'
  | '/' => some '/'
  | 'b' => some '\x08'
  | 'f' => some '\x0c'
  | 'n' => some '\n'
  | 'r' => some '\r'
  | 't' => some '\t'
  | _ => none

/-- The value of a hexadecimal digit. -/
def hexValue? (c : Char) : Option Nat :=
  if c.isDigit then some (c.toNat - 48)
  else if 'a' ≤ c ∧ c ≤ 'f' then some (c.toNat - 87)
  else if 'A' ≤ c ∧ c ≤ 'F' then some (c.toNat - 55)
  else none

/-! ### The machine -/

/-- Where in a token the machine is. -/
inductive ScanState where
  | between
  /-- In a word, with its letters so far, the last one first. -/
  | word (letters : List Char)
  /-- In a number, with its characters so far, the last one first. -/
  | number (chars : List Char)
  | text (content : Content)
  /-- In a text, after a backslash. -/
  | escape (content : Content)
  /-- In a text, in the digits of a code unit: how many are missing, and their value so far. -/
  | unit (content : Content) (missing : Nat) (value : Nat)

/-- Whether a character may stand between tokens. -/
def isBlank (c : Char) : Bool := c = ' ' || c = '\t' || c = '\n' || c = '\r'

/-- The token that a character is by itself. -/
def punctuation? : Char → Option Token
  | '\x7b' => some .openBrace
  | '\x7d' => some .closeBrace
  | '[' => some .openBracket
  | ']' => some .closeBracket
  | ',' => some .comma
  | ':' => some .colon
  | _ => none

namespace ScanState

/-- Read a character between tokens. -/
def start (c : Char) : Option (List Token × ScanState) :=
  match punctuation? c with
  | some token => some ([token], between)
  | none =>
    if isBlank c then some ([], between)
    else if c = '"' then some ([], text {})
    else if c = '-' || c.isDigit then some ([], number [c])
    else if c.isLower then some ([], word [c])
    else none

/-- Read a character. -/
def step (s : ScanState) (c : Char) : Option (List Token × ScanState) :=
  match s with
  | between => start c
  | word letters =>
    if c.isLower then some ([], word (c :: letters))
    else do
      let token ← Token.ofWord? letters.reverse
      let (tokens, s) ← start c
      return (token :: tokens, s)
  | number chars =>
    if isNumberChar c then some ([], number (c :: chars))
    else do
      let token ← Token.ofNumber? chars.reverse
      let (tokens, s) ← start c
      return (token :: tokens, s)
  | text content =>
    if c = '"' then some ([.text content.close], between)
    else if c = '\\' then some ([], escape content)
    else if c.toNat < 0x20 then none
    else some ([], text (content.push c))
  | escape content =>
    if c = 'u' then some ([], unit content 4 0)
    else do return ([], text (content.push (← escaped? c)))
  | unit content missing value => do
    let value := value * 16 + (← hexValue? c)
    if missing ≤ 1 then return ([], text (content.pushUnit value))
    else return ([], unit content (missing - 1) value)

/-- The tokens that end with the text. -/
def finish : ScanState → Option (List Token)
  | between => some []
  | word letters => return [← Token.ofWord? letters.reverse]
  | number chars => return [← Token.ofNumber? chars.reverse]
  | text _ | escape _ | unit _ _ _ => none

/-- Read a character, after which the tokens so far may be some more. -/
def advance (progress : Array Token × ScanState) (c : Char) :
    Option (Array Token × ScanState) := do
  let (tokens, s) ← progress.2.step c
  return (progress.1 ++ tokens, s)

end ScanState

/-- The tokens of a text, if it consists of tokens. -/
def Token.scan (text : String) : Option (List Token) := do
  let (tokens, s) ← text.toList.foldlM ScanState.advance (#[], .between)
  return tokens.toList ++ (← s.finish)

/-! ## Documents

`Json.read` turns tokens into a value with a stack of the arrays and objects that are still open,
so that nesting may be as deep as the text is long. Every token takes one step; a text is a JSON
document if the last step completes a value and none comes after that. -/

/-- An array or object that is still open and waits for a value. -/
inductive Frame where
  /-- An array with its items so far, the last one first. -/
  | array (items : List Json)
  /-- An object with its members so far, the last one first, and the key of the value. -/
  | object (members : List (Option String × Json)) (key : Option String)

/-- What has been read, and what may follow. -/
inductive ReadState where
  /-- A value follows. -/
  | value (stack : List Frame)
  /-- An array has been opened: a value or the end of the array follows. -/
  | firstItem (stack : List Frame)
  /-- A comma or the end of the array follows. -/
  | afterItem (stack : List Frame) (items : List Json)
  /-- An object has been opened: a key or the end of the object follows. -/
  | firstKey (stack : List Frame)
  /-- A key follows. -/
  | nextKey (stack : List Frame) (members : List (Option String × Json))
  /-- A colon follows. -/
  | afterKey (stack : List Frame) (members : List (Option String × Json)) (key : Option String)
  /-- A comma or the end of the object follows. -/
  | afterMember (stack : List Frame) (members : List (Option String × Json))
  /-- Nothing follows. -/
  | complete (document : Json)

namespace ReadState

/-- Hand a finished value to the innermost open array or object. -/
def deliver (v : Json) : List Frame → ReadState
  | [] => complete v
  | .array items :: stack => afterItem stack (v :: items)
  | .object members key :: stack => afterMember stack ((key, v) :: members)

/-- Read the first token of a value. -/
def open? (stack : List Frame) : Token → Option ReadState
  | .null => some (deliver .null stack)
  | .bool b => some (deliver (.bool b) stack)
  | .number lexeme => some (deliver (.number lexeme) stack)
  | .text content => some (deliver (.text content) stack)
  | .openBracket => some (firstItem stack)
  | .openBrace => some (firstKey stack)
  | .closeBrace | .closeBracket | .comma | .colon => none

/-- Read a token. -/
def step : ReadState → Token → Option ReadState
  | value stack, token => open? stack token
  | firstItem stack, .closeBracket => some (deliver (.array []) stack)
  | firstItem stack, token => open? (.array [] :: stack) token
  | afterItem stack items, .comma => some (value (.array items :: stack))
  | afterItem stack items, .closeBracket => some (deliver (.array items.reverse) stack)
  | firstKey stack, .closeBrace => some (deliver (.object []) stack)
  | firstKey stack, .text key => some (afterKey stack [] key)
  | nextKey stack members, .text key => some (afterKey stack members key)
  | afterKey stack members key, .colon => some (value (.object members key :: stack))
  | afterMember stack members, .comma => some (nextKey stack members)
  | afterMember stack members, .closeBrace => some (deliver (.object members.reverse) stack)
  | _, _ => none

/-- The value that is complete. -/
def result? : ReadState → Option Json
  | complete document => some document
  | _ => none

end ReadState

/-- The value of a list of tokens, if it is a document. -/
def ofTokens? (tokens : List Token) : Option Json := do
  (← tokens.foldlM ReadState.step (.value [])).result?

/-- The value of a text, if it is a document. -/
def read (text : String) : Option Json := Token.scan text >>= ofTokens?

end Betweenness.Json
