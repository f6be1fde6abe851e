/-
  HeaderReflection.Proofs.Files.StoppedRun

  A run over a directory that fails. It stops at the first header that would
  also fail alone. What it leaves is what each header before that one would
  leave alone, and what belongs to the headers behind it is untouched.
-/
import HeaderReflection.Proofs.Files.ListedHeaders

namespace HeaderReflection

open FileTree Walk HeaderReflection.Path

variable {s t t' : FileTree} {c : Config} {root output g h : Path} {q place : Place}
variable {way : List Place} {before after headers : List Path} {e : RunError}

/-! ## The headers before a failure -/

end HeaderReflection
