/-
  HeaderReflection.Proofs.Verbatim

  What an extraction says is copied from the header: names, qualifiers, fields
  and cases are written with the characters of its normal form, and with the
  colons of a qualifier. The normal form is one line, and so are they all.
-/
import HeaderReflection.Proofs.Comments
import HeaderReflection.Proofs.MarkerCoverage
import HeaderReflection.Proofs.ScopeTree
import HeaderReflection.Proofs.Slices
import HeaderReflection.Proofs.SpacingPass
import HeaderReflection.Proofs.Steps

namespace HeaderReflection

/-! ## Parts of a text -/

namespace Text

variable {s t : Text} {parts : List Text}

end Text

/-! ## Parts of a header -/

section Parts

variable {source x : Text} {s : TokenStream} {kind : DeclKind} {marker start close i j : Nat}

namespace TokenStream

end TokenStream

namespace ScopeTree

end ScopeTree

/-! ## Declarations -/

end Parts

/-! ## Whole headers -/

end HeaderReflection
