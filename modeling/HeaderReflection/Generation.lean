/-
  HeaderReflection.Generation

  Writing companions. A header's old companion is removed before the header is
  read, so that none is left of a header which has nothing marked any more or
  cannot be read.
-/
import HeaderReflection.Extraction
import HeaderReflection.FileTree.Change
import HeaderReflection.Walk

namespace HeaderReflection

/-! ## One header -/

/-- What became of a header. -/
inductive Outcome
  /-- Its companion was written. -/
  | generated (input output : Path) (extraction : Extraction)
  /-- It has nothing marked, and no companion. -/
  | skipped (input : Path)
  deriving DecidableEq, Repr

namespace Outcome

/-- The header's path. -/
def input : Outcome → Path
  | generated input _ _ => input
  | skipped input => input

/-- Was a companion written? -/
def isGenerated : Outcome → Bool
  | generated _ _ _ => true
  | skipped _ => false

end Outcome

/-- What the header at a path declares. -/
def readExtraction (t : FileTree) (input : Path) : Except RunError Extraction :=
  if t.isFile input then
    match t.readText input with
    | .error e => .error (.file input e)
    | .ok raw => (extractSource raw).mapError (.parse input)
  else .error (.inputNotFound input)

/-- Removes an old companion; there need not be one. -/
def removeStale (t : FileTree) (output : Path) : Except FileError FileTree :=
  match t.removeFile output with
  | .error .notFound => .ok t
  | result => result

/-- Writes the companion of a header. The tree comes back also from a failure, with what had been
done before it. -/
def generateFile (t : FileTree) (c : Config) (input : Path) :
    Except RunError Outcome × FileTree :=
  match c.companionPath? input with
  | none => (.error (.wrongExtension input c.headerEnding), t)
  | some output =>
    match removeStale t output with
    | .error e => (.error (.file output e), t)
    | .ok t =>
      -- From here on the old companion is gone, whatever becomes of the header.
      match readExtraction t input with
      | .error e => (.error e, t)
      | .ok extraction =>
        if extraction.isEmpty then (.ok (.skipped input), t)
        else
          match t.writeFile output (Text.encode (Companion.render c.sentinels extraction)) with
          | .error e => (.error (.file output e), t)
          | .ok t => (.ok (.generated input output extraction), t)

/-- The text that a header's companion would have, or none if there would be no companion. -/
def previewFile (t : FileTree) (c : Config) (input : Path) : Except RunError (Option Text) :=
  match c.companionPath? input with
  | none => .error (.wrongExtension input c.headerEnding)
  | some _ => do
    let extraction ← readExtraction t input
    return if extraction.isEmpty then none else some (Companion.render c.sentinels extraction)

/-! ## Many headers -/

/-- Writes the companions of headers one after the other, up to the first failure. -/
def generateFiles (t : FileTree) (c : Config) :
    List Path → Except RunError (List Outcome) × FileTree
  | [] => (.ok [], t)
  | input :: rest =>
    match generateFile t c input with
    | (.error e, t) => (.error e, t)
    | (.ok outcome, t) =>
      match generateFiles t c rest with
      | (.error e, t) => (.error e, t)
      | (.ok outcomes, t) => (.ok (outcome :: outcomes), t)

/-- Writes the companions of all headers below a root. -/
def generateDir (t : FileTree) (c : Config) (root : Path) :
    Except RunError (List Outcome) × FileTree :=
  match collectHeaders t c root with
  | .error e => (.error e, t)
  | .ok headers => generateFiles t c headers

end HeaderReflection
