/-
  HeaderReflection.NormalForm

  The normal form of a header: one line without directives and comments, in
  canonical spacing. Directives and comments are found by their line ends, so
  they go first and the line ends after them.
-/
import HeaderReflection.NormalForm.Comments
import HeaderReflection.NormalForm.Directives
import HeaderReflection.NormalForm.Spacing

namespace HeaderReflection

/-- The text in canonical spacing. -/
def NormalForm.respace (s : Text) : Text :=
  dropLeadingSpace (tightenPunctuation (collapseSpaces (flatten s)))

/-- The normal form of a raw header, or where its open block comment begins. -/
def normalize (raw : Text) : Except ParseError Text := do
  let code ← NormalForm.dropBlockComments (NormalForm.blankDirectives raw)
  return NormalForm.respace (NormalForm.dropLineComments code)

end HeaderReflection
