/-
  HeaderReflection.Ignore.Fault

  What can be wrong with an ignore file.
-/
import HeaderReflection.Path

namespace HeaderReflection.Ignore

/-- Why a text writes no pattern. -/
inductive GlobError
  | unclosedBrace
  | unopenedBrace
  /-- A range of characters ends before it starts. -/
  | invalidRange (lo hi : Char)
  /-- No character follows a backslash. -/
  | danglingBackslash
  deriving DecidableEq, Repr

/-- The sentence shown to the user. -/
def GlobError.message : GlobError → String
  | unclosedBrace =>
    "unclosed alternate group; missing '\x7d' (maybe escape '\x7b' with '[\x7b]'?)"
  | unopenedBrace =>
    "unopened alternate group; missing '\x7b' (maybe escape '\x7d' with '[\x7d]'?)"
  | invalidRange lo hi => "invalid range; '" ++ lo.toString ++ "' > '" ++ hi.toString ++ "'"
  | danglingBackslash => "dangling '\\'"

/-- What is wrong with a line of an ignore file. -/
inductive LineFault
  | malformed (line : Text) (cause : GlobError)
  /-- The line is not valid UTF-8. -/
  | notText
  deriving DecidableEq, Repr

/-- The sentence shown to the user. -/
def LineFault.message : LineFault → String
  | malformed line cause =>
    "error parsing glob '" ++ String.ofList line ++ "': " ++ cause.message
  | notText => "stream did not contain valid UTF-8"

/-- What is wrong with an ignore file. -/
inductive Fault
  /-- A line cannot be read; lines are counted from one. -/
  | line (file : Path) (number : Nat) (cause : LineFault)
  /-- A pattern is nested too deep. -/
  | tooDeep (number : Nat)
  deriving DecidableEq, Repr

/-- The sentence shown to the user. -/
def Fault.message : Fault → String
  | line file number cause =>
    String.ofList file ++ ": line " ++ toString number ++ ": " ++ cause.message
  | tooDeep number => "error parsing pattern " ++ toString number

end HeaderReflection.Ignore
