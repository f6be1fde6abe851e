/-
  HeaderReflection.NormalForm.Spacing

  Canonical spacing. Line ends and tabs count as spaces, a run of spaces is
  one space, and no space stands beside a brace, after a semicolon or at the
  start of the text.
-/
import HeaderReflection.Text.Search

namespace HeaderReflection.NormalForm

/-- Line ends and tabs become spaces. -/
def flatten (s : Text) : Text :=
  s.map fun c => if c == '\n' || c == '\r' || c == '\t' then ' ' else c

/-- A run of spaces becomes one; `afterSpace` says that a space has just been written. -/
def collapseSpacesFrom (afterSpace : Bool) : Text → Text
  | [] => []
  | c :: r =>
    if c == ' ' then
      if afterSpace then collapseSpacesFrom true r else ' ' :: collapseSpacesFrom true r
    else c :: collapseSpacesFrom false r

/-- Every run of spaces becomes one space. -/
def collapseSpaces (s : Text) : Text :=
  collapseSpacesFrom false s

/-- Drops the space before an opening brace, after it, after a closing brace, before it, and after a
semicolon, one after the other. -/
def tightenPunctuation (s : Text) : Text :=
  -- A run of spaces is one space by now, so a single pass for each pair finds all of them.
  let s := Text.contract ' ' '{' '{' s
  let s := Text.contract '{' ' ' '{' s
  let s := Text.contract '}' ' ' '}' s
  let s := Text.contract ' ' '}' '}' s
  Text.contract ';' ' ' ';' s

/-- Drops one space at the start. -/
def dropLeadingSpace : Text → Text
  | [] => []
  | c :: r => if c == ' ' then r else c :: r

end HeaderReflection.NormalForm
