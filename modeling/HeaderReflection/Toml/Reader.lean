/-
  HeaderReflection.Toml.Reader

  The readers that the parts of a TOML document are made of. A reader takes
  what it recognises off the front of the text, or fails.
-/
import HeaderReflection.Text

namespace HeaderReflection.Toml

/-- Takes a value off the front of a text. -/
abbrev Reader (α : Type) := Text → Option (α × Text)

/-! ## Characters -/

/-- Takes the given characters. -/
def expect (word : Text) (s : Text) : Option Text :=
  if word.isPrefixOf s then some (s.drop word.length) else none

/-- May the character stand in a comment or a string? -/
def isPrintable (c : Char) : Bool :=
  c == '\t' || (0x20 ≤ c.toNat && c.toNat != 0x7f)

/-- Is the character a space or a tab? -/
def isSpace (c : Char) : Bool :=
  c == ' ' || c == '\t'

/-- Is the character a hexadecimal digit? -/
def isHexDigit (c : Char) : Bool :=
  c.isDigit || ('a' ≤ c && c ≤ 'f') || ('A' ≤ c && c ≤ 'F')

/-- The value of a hexadecimal digit. -/
def hexValue (c : Char) : Nat :=
  if c.isDigit then c.toNat - '0'.toNat
  else if 'a' ≤ c then c.toNat - 'a'.toNat + 10
  else c.toNat - 'A'.toNat + 10

/-- The number that digits write in a base. -/
def natOfDigits (base : Nat) (digits : Text) : Nat :=
  digits.foldl (fun n c => n * base + hexValue c) 0

/-! ## Space between the parts -/

/-- Skips spaces and tabs. -/
def skipSpaces (s : Text) : Text :=
  s.dropWhile isSpace

/-- Takes a line feed, or a carriage return and a line feed. -/
def newline : Text → Option Text
  | '\n' :: r => some r
  | '\r' :: '\n' :: r => some r
  | _ => none

/-- Skips a comment, if one starts here. -/
def skipComment : Text → Text
  | '#' :: r => r.dropWhile isPrintable
  | s => s

/-- Skips the rest of a line, in which nothing but a comment may stand, and takes its end. -/
def lineEnd (s : Text) : Option Text :=
  match skipComment (skipSpaces s) with
  | [] => some []
  | s => newline s

/-- Skips spaces and line ends. -/
def skipSpacesAndNewlines : Text → Text
  | [] => []
  | '\r' :: '\n' :: r => skipSpacesAndNewlines r
  | c :: r => if isSpace c || c == '\n' then skipSpacesAndNewlines r else c :: r

/-- Skips spaces, line ends and comments, a comment only with its line end; `bound` is the number of
lines it may skip. -/
def skipLines (bound : Nat) (s : Text) : Text :=
  let s := skipSpaces s
  match bound with
  | 0 => s
  | bound + 1 =>
    match newline (skipComment s) with
    | some r => skipLines bound r
    | none => s

/-- Skips spaces, line ends and comments. -/
def skipAll (s : Text) : Text :=
  skipLines s.length s

end HeaderReflection.Toml
