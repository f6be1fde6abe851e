/-
  HeaderReflection.RunError

  The ways in which a run over a file or a directory can fail.
-/
import HeaderReflection.Config.Reader
import HeaderReflection.FileTree
import HeaderReflection.Ignore.Fault
import HeaderReflection.ParseError

namespace HeaderReflection

/-- Why a directory cannot be walked. -/
inductive WalkError
  /-- The directory cannot be read. -/
  | unreadable (cause : FileError)
  /-- The ignore files above the directory are malformed. -/
  | ignoreFiles (faults : List Ignore.Fault)
  deriving DecidableEq, Repr

/-- The sentence shown to the user, about the directory at `root`. -/
def WalkError.message (root : String) : WalkError → String
  | unreadable cause => root ++ ": IO error for operation on " ++ root ++ ": " ++ cause.message
  | ignoreFiles faults => "\n".intercalate (faults.map (·.message))

/-- Why a run failed. -/
inductive RunError
  /-- The file's name does not end as a header's does. -/
  | wrongExtension (path : Path) (ending : Text)
  /-- The path does not lead to a file. -/
  | inputNotFound (path : Path)
  /-- A file cannot be read or changed. -/
  | file (path : Path) (cause : FileError)
  /-- A header cannot be read. -/
  | parse (path : Path) (cause : ParseError)
  /-- A directory cannot be walked. -/
  | walk (root : Path) (cause : WalkError)
  /-- A configuration is refused. -/
  | config (path : Path) (cause : ConfigError)
  deriving DecidableEq, Repr

/-- The sentence shown to the user. -/
def RunError.message : RunError → String
  | wrongExtension path ending =>
    "input file must have a '" ++ String.ofList ending ++ "' extension: " ++ String.ofList path
  | inputNotFound path => "input file '" ++ String.ofList path ++ "' does not exist"
  | file path cause => String.ofList path ++ ": " ++ cause.message
  | parse path cause => String.ofList path ++ ": " ++ cause.message
  | walk root cause =>
    "failed to walk " ++ String.ofList root ++ ": " ++ cause.message (String.ofList root)
  | config path cause => "invalid config " ++ String.ofList path ++ ": " ++ cause.message

end HeaderReflection
