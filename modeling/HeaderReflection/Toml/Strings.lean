/-
  HeaderReflection.Toml.Strings

  The four kinds of TOML string: basic and literal ones, each on one line or
  on several. Only basic strings know escapes.
-/
import HeaderReflection.Toml.Reader

namespace HeaderReflection.Toml

/-! ## Escapes -/

/-- Takes `count` hexadecimal digits that write a character. -/
def hexEscape (count : Nat) : Reader Char := fun s =>
  let digits := s.take count
  let n := natOfDigits 16 digits
  if digits.length == count && digits.all isHexDigit then
    if h : n.isValidChar then some (Char.ofNatAux n h, s.drop count) else none
  else none

/-- Takes what follows the backslash of an escape. -/
def escape : Reader Char
  | 'b' :: r => some ('\x08', r)
  | 't' :: r => some ('\t', r)
  | 'n' :: r => some ('\n', r)
  | 'f' :: r => some ('\x0c', r)
  | 'r' :: r => some ('\r', r)
  | '"' :: r => some ('"', r)
  | '\\' :: r => some ('\\', r)
  | 'u' :: r => hexEscape 4 r
  | 'U' :: r => hexEscape 8 r
  | _ => none

/-- Takes a backslash's line end with all space after it. -/
def lineContinuation (s : Text) : Option Text :=
  (newline (skipSpaces s)).map skipSpacesAndNewlines

/-! ## Strings on one line -/

/-- Takes the rest of a string on one line. Every step takes a character, so the length of the text
bounds their number. -/
def lineStringFrom (quote : Char) (escapes : Bool) : (bound : Nat) → Reader Text
  | 0, _ => none
  | _ + 1, [] => none
  | bound + 1, c :: r => do
    if c == quote then return ([], r)
    let (x, r) ← if escapes && c == '\\' then escape r
      else if isPrintable c then some (c, r) else none
    let (rest, r) ← lineStringFrom quote escapes bound r
    return (x :: rest, r)

/-- Takes a string on one line, in either kind of quotes. -/
def lineString : Reader Text
  | '"' :: r => lineStringFrom '"' true (r.length + 1) r
  | '\'' :: r => lineStringFrom '\'' false (r.length + 1) r
  | _ => none

/-! ## Strings on several lines -/

/-- Takes the rest of a string on several lines. It is closed by three quotes, before which up to two
more may stand. -/
def blockStringFrom (quote : Char) (escapes : Bool) : (bound : Nat) → Reader Text
  | 0, _ => none
  | _ + 1, [] => none
  | bound + 1, c :: r => do
    let quotes := ((c :: r).takeWhile (· == quote)).length
    if 3 ≤ quotes then
      return (List.replicate (min quotes 5 - 3) quote, (c :: r).drop (min quotes 5))
    let (piece, r) ←
      if escapes && c == '\\' then
        match lineContinuation r with
        | some r => some ([], r)
        | none => (escape r).map fun (x, r) => ([x], r)
      else match newline (c :: r) with
        | some r => some (['\n'], r)
        | none => if isPrintable c then some ([c], r) else none
    let (rest, r) ← blockStringFrom quote escapes bound r
    return (piece ++ rest, r)

/-- Takes a string of either kind, on one line or on several. A line end right behind the opening
quotes is skipped. -/
def string : Reader Text
  | '"' :: '"' :: '"' :: r =>
    let r := (newline r).getD r
    blockStringFrom '"' true (r.length + 1) r
  | '\'' :: '\'' :: '\'' :: r =>
    let r := (newline r).getD r
    blockStringFrom '\'' false (r.length + 1) r
  | s => lineString s

end HeaderReflection.Toml
