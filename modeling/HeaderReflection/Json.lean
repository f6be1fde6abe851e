/-
  HeaderReflection.Json

  JSON values and their text: two spaces for each level, an item or member on
  each line, and no line break in empty ones.
-/
import HeaderReflection.Text

namespace HeaderReflection

/-- A JSON value. The members of an object are listed in the order of their names. -/
inductive Json
  | null
  | string (s : Text)
  | array (items : List Json)
  | object (members : List (Text × Json))

namespace Json

/-! ## Strings -/

/-- A lower case hexadecimal digit. -/
def hexDigit (n : Nat) : Char :=
  if n < 10 then Char.ofNat ('0'.toNat + n) else Char.ofNat ('a'.toNat + (n - 10))

/-- A character as it stands in a string. Quotes, backslashes and control characters are escaped. -/
def escapeChar (c : Char) : Text :=
  if c == '"' then ['\\', '"']
  else if c == '\\' then ['\\', '\\']
  else if c == '\n' then ['\\', 'n']
  else if c == '\r' then ['\\', 'r']
  else if c == '\t' then ['\\', 't']
  else if c == '\x08' then ['\\', 'b']
  else if c == '\x0c' then ['\\', 'f']
  else if c.toNat < 0x20 then
    ['\\', 'u', '0', '0', hexDigit (c.toNat / 16), hexDigit (c.toNat % 16)]
  else [c]

/-- A string in its quotes. -/
def quoted (s : Text) : Text :=
  '"' :: s.flatMap escapeChar ++ ['"']

/-! ## Values -/

/-- A line break with the indentation of a level. -/
def newLine (level : Nat) : Text :=
  '\n' :: List.replicate (2 * level) ' '

mutual

/-- The text of a value at a level. -/
def pretty (level : Nat) : Json → Text
  | null => "null".toList
  | string s => quoted s
  | array [] => ['[', ']']
  | array (v :: vs) =>
    '[' :: newLine (level + 1) ++ pretty (level + 1) v ++ prettyItems (level + 1) vs
      ++ newLine level ++ [']']
  | object [] => ['{', '}']
  | object ((k, v) :: ms) =>
    '{' :: newLine (level + 1) ++ quoted k ++ [':', ' '] ++ pretty (level + 1) v
      ++ prettyMembers (level + 1) ms ++ newLine level ++ ['}']

/-- The text of the items behind the first one. -/
def prettyItems (level : Nat) : List Json → Text
  | [] => []
  | v :: vs => ',' :: newLine level ++ pretty level v ++ prettyItems level vs

/-- The text of the members behind the first one. -/
def prettyMembers (level : Nat) : List (Text × Json) → Text
  | [] => []
  | (k, v) :: ms =>
    ',' :: newLine level ++ quoted k ++ [':', ' '] ++ pretty level v ++ prettyMembers level ms

end

end Json

end HeaderReflection
