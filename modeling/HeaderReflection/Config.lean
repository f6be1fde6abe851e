/-
  HeaderReflection.Config

  The settings of a run: which files are headers, what their companions are
  called, which enum cases are left out and which directories are not walked.
-/
import HeaderReflection.Companion
import HeaderReflection.Path

namespace HeaderReflection

/-- The settings of a run. -/
structure Config where
  /-- The ending of a header's name, without its point. -/
  extension : Text
  /-- What stands before the ending in a companion's name. -/
  generatedSuffix : Text
  /-- The enum cases that are left out of companions. -/
  sentinels : List Text
  /-- The names of directories that are not walked. -/
  skipDirs : List Text
  deriving DecidableEq, Repr

namespace Config

/-- The settings that hold unless a configuration file says otherwise. -/
def default : Config where
  extension := "h".toList
  generatedSuffix := "_generated".toList
  sentinels := Companion.defaultSentinels
  skipDirs := [".git".toList, "target".toList, "build".toList, "node_modules".toList]

instance : Inhabited Config := ⟨default⟩

variable (c : Config)

/-- The ending of a header's name. -/
def headerEnding : Text :=
  '.' :: c.extension

/-- The ending of a companion's name. -/
def companionEnding : Text :=
  c.generatedSuffix ++ c.headerEnding

/-- Is a file of this name read as a header? Companions are not. -/
def isInputName (name : Text) : Bool :=
  c.headerEnding.isSuffixOf name && !c.companionEnding.isSuffixOf name

/-- The path of a header's companion, which lies beside it; none if the path has another ending. -/
def companionPath? (input : Path) : Option Path :=
  (Text.dropEnding? c.headerEnding (input.fileName?.getD [])).map fun stem =>
    input.withFileName (stem ++ c.companionEnding)

/-- Is a directory of this name left out of a walk? -/
def skips (name : Text) : Bool :=
  c.skipDirs.contains name

/-- The names of directories that are not walked, each once and in the order of their bytes. -/
def sortedSkipDirs : List Text :=
  (c.skipDirs.mergeSort fun a b => (compare a b).isLE).eraseDups

end Config

end HeaderReflection
