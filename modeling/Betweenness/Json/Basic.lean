/-!
# JSON values

The tree of a JSON document, how fields are read from it and how it is written.

Numbers are kept as they are written, so nothing is lost and no arithmetic is implied. The escapes
of a text may name half of a surrogate pair without the other half, and such a text has no
characters: it is kept as `none`, since all that matters about it is that it is no other text.
Members of an object are kept in order, with repeated keys.
-/

namespace Betweenness

/-- A JSON value. -/
inductive Json where
  | null
  | bool (value : Bool)
  | number (lexeme : String)
  | text (content : Option String)
  | array (items : List Json)
  | object (members : List (Option String × Json))
  deriving Repr, Inhabited

namespace Json

/-- A natural number as a value. -/
def ofNat (n : Nat) : Json := number (toString n)

/-- A string as a value. -/
def ofString (s : String) : Json := text (some s)

/-- A value that may be missing; `null` stands for a missing one. -/
def orNull : Option Json → Json
  | none => null
  | some v => v

/-- An object with the given members. -/
def record (members : List (String × Json)) : Json :=
  object (members.map fun (key, v) => (some key, v))

/-! ### Reading fields

A document with named fields may be an object, which names them, or an array, which gives them in
a fixed order and may stop early. `Json.fields?` brings both into one form. In that form a field
may be absent, and then has its default; it must not be there twice; and what is not a known
field is of no interest. -/

/-- The fields of a document by name. A key must be a text with characters, and an array must not
have more items than there are names. -/
def fields? (names : List String) : Json → Option (List (String × Json))
  | object members => members.mapM fun (key, v) => key.map (·, v)
  | array items => if items.length ≤ names.length then some (names.zip items) else none
  | _ => none

/-- Read a field, or take its default if it is absent. -/
def field? {α : Type} (fields : List (String × Json)) (name : String) (default : α)
    (read : Json → Option α) : Option α :=
  match fields.filter (·.1 = name) with
  | [] => some default
  | [(_, v)] => read v
  | _ => none

/-- A Boolean. -/
def bool? : Json → Option Bool
  | bool b => some b
  | _ => none

/-- A text with characters. -/
def string? : Json → Option String
  | text content => content
  | _ => none

/-- A natural number below `2 ^ 64` that is written with digits only. -/
def natural? : Json → Option Nat
  | number lexeme =>
    let digits := lexeme.toList
    let n := Nat.ofDigitChars 10 digits 0
    if digits.all Char.isDigit ∧ n < UInt64.size then some n else none
  | _ => none

/-- A list of natural numbers below `2 ^ 64`. -/
def naturals? : Json → Option (List Nat)
  | array items => items.mapM natural?
  | _ => none

/-- A value that may be `null`. -/
def nullable? {α : Type} (read : Json → Option α) : Json → Option (Option α)
  | null => some none
  | v => some <$> read v

/-! ### Writing JSON

`Json.write` is the compact text of a value: no blanks, members in order. A text is written with
the short escapes where there are any, and other control characters by their code units. A text
that has no characters is written as half of a surrogate pair. -/

/-- A digit of a code unit in an escape. -/
def hexDigit (n : Nat) : Char := Nat.digitChar (n % 16)

/-- The characters that stand for a character in a text. -/
def escape (c : Char) : List Char :=
  if c = '"' then ['\\', '"']
  else if c = '\\' then ['\\', '\\']
  else if c = '\x08' then ['\\', 'b']
  else if c = '\x0c' then ['\\', 'f']
  else if c = '\n' then ['\\', 'n']
  else if c = '\r' then ['\\', 'r']
  else if c = '\t' then ['\\', 't']
  else if c.toNat < 0x20 then ['\\', 'u', '0', '0', hexDigit (c.toNat / 16), hexDigit c.toNat]
  else [c]

/-- A text in quotes. -/
def quoted : Option String → String
  | some s => "\"" ++ String.ofList (s.toList.flatMap escape) ++ "\""
  | none => "\"\\ud800\""

/-- Texts with a comma between any two. -/
def commaSeparated (texts : List String) : String := String.intercalate "," texts

mutual

/-- The compact text of a value. -/
def write : Json → String
  | null => "null"
  | bool b => if b then "true" else "false"
  | number lexeme => lexeme
  | text content => quoted content
  | array items => "[" ++ commaSeparated (writeItems items) ++ "]"
  | object members => "\x7b" ++ commaSeparated (writeMembers members) ++ "\x7d"

/-- The texts of the items of an array. -/
def writeItems : List Json → List String
  | [] => []
  | v :: vs => write v :: writeItems vs

/-- The texts of the members of an object. -/
def writeMembers : List (Option String × Json) → List String
  | [] => []
  | (key, v) :: ms => (quoted key ++ ":" ++ write v) :: writeMembers ms

end

end Json

end Betweenness
