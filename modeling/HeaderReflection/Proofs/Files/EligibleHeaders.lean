/-
  HeaderReflection.Proofs.Files.EligibleHeaders

  What a walk lists in a tree without ignore files: the eligible headers, those
  in sight that no directory to skip stands above. Each comes once, and they
  come in the order of the bytes of the names that lead to them. A path that
  stands for the standard input lists nothing, whatever directory is called so.
-/
import HeaderReflection.Proofs.Files.ListedHeaders
import HeaderReflection.Proofs.Stream
import HeaderReflection.Proofs.TextBytes

namespace HeaderReflection

open FileTree Walk

variable {t : FileTree} {c : Config} {root path : Path} {place d : Place} {name n : Text}
variable {start : Start} {rules : List RulesAt} {isDir : Bool} {bound : Nat} {dirs : List Text}
variable {route : Place} {below : List Place} {e : Entry} {x : Text × Entry}

/-! ## Trees without ignore files -/

namespace FileTree

end FileTree

namespace Walk

/-! ## A walk without rules -/

end Walk

/-! ## The headers of a directory -/

end HeaderReflection
