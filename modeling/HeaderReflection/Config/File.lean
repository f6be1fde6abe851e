/-
  HeaderReflection.Config.File

  Configuration files: one that is named has to be there and to be right, and
  one that is looked for beside the headers gives way to the defaults.
-/
import HeaderReflection.FileTree.Lookup
import HeaderReflection.RunError

namespace HeaderReflection.Config

/-- The configuration of the named file, and the warnings about it. -/
def load (t : FileTree) (p : Path) : List ConfigWarning × Except RunError Config :=
  match t.readText p with
  | .error e => ([], .error (.file p e))
  | .ok text =>
    let (warnings, result) := read text
    (warnings, result.mapError (.config p))

/-- The configuration for a directory: that of the file in it, or the default one if there is none or
it cannot be used. -/
def loadFor (t : FileTree) (directory : Path) : List ConfigWarning × Config :=
  let p := directory.join fileName
  if t.exists? p then
    match load t p with
    | (warnings, .ok c) => (warnings, c)
    | (warnings, .error _) => (warnings ++ [.unusable], default)
  else ([], default)

end HeaderReflection.Config
