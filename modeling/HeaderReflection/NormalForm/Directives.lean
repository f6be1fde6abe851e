/-
  HeaderReflection.NormalForm.Directives

  Blanking of preprocessor directives. A directive is a line whose first
  character after spaces and tabs is `#`, with the lines that it runs on to by
  a trailing backslash. Its bytes become spaces, so offsets stay what they were.
-/
import HeaderReflection.Text.Search

namespace HeaderReflection.NormalForm

/-! ## One line -/

/-- The line without the line ends that close it. -/
def lineBody (line : Text) : Text :=
  (line.reverse.dropWhile fun c => c == '\n' || c == '\r').reverse

/-- Does the line start a directive? -/
def startsDirective (body : Text) : Bool :=
  (body.dropWhile fun c => c == ' ' || c == '\t').head? == some '#'

/-- Does the line run on to the next one? -/
def runsOn (body : Text) : Bool :=
  body.getLast? == some '\\'

/-- A space for every byte, and the line feed as it is. -/
def blankLine (line : Text) : Text :=
  line.flatMap fun c => if c == '\n' then [c] else List.replicate c.utf8Size ' '

/-! ## All lines -/

/-- Blanks the directive lines of a list of lines; `continuing` says that the line before the first
one is a directive that runs on. -/
def blankDirectiveLines (continuing : Bool) : List Text → List Text
  | [] => []
  | line :: rest =>
    if continuing || startsDirective (lineBody line) then
      blankLine line :: blankDirectiveLines (runsOn (lineBody line)) rest
    else
      line :: blankDirectiveLines false rest

/-- The text with every directive blanked in place. -/
def blankDirectives (text : Text) : Text :=
  (blankDirectiveLines false text.lines).flatten

end HeaderReflection.NormalForm
