/-
  HeaderReflection.Proofs.Files.DryRun

  A dry run tells what a run will do. It reads every header from the tree as it
  is, while a run changes the tree from one header to the next; but no companion
  has a part in the reading of a header, so a run that goes well leaves the texts
  that the dry run prints. They are found in what it prints by a reading of JSON.
-/
import HeaderReflection.CommandLine
import HeaderReflection.Proofs.Files.Naming
import HeaderReflection.Proofs.JsonReading

namespace HeaderReflection

open FileTree CommandLine

variable {t t' s s' : FileTree} {c : Config} {o : Options} {path input output root : Path}
variable {place : Place} {contents : ByteArray} {outcome : Outcome} {outcomes : List Outcome}
variable {headers : List Path} {text? : Option Text}

/-! ## One header -/

namespace CommandLine

/-- The outcomes of a run that writes companions, and the tree that it leaves. -/
def outcomesOf (t : FileTree) (c : Config) (path : Path) :
    Except RunError (List Outcome) × FileTree :=
  if t.isDir path then generateDir t c path else generateFiles t c [path]

/-- What a run prints about its outcomes. -/
def reportOf (json : Bool) (outcomes : List Outcome) : Text :=
  if json then line (Json.pretty 0 (.array (outcomes.map (·.toJson))))
  else outcomes.flatMap outcomeLine

theorem generate_eq (t : FileTree) (c : Config) (json : Bool) (path : Path) :
    generate t c json path =
      match outcomesOf t c path with
      | (.error e, t') => ((1, [], errorLine e), t')
      | (.ok outcomes, t') =>
        ((0, reportOf json outcomes,
          if json then [] else if t.isDir path then summary outcomes else []), t') := by
  rw [generate, ← outcomesOf]
  rcases outcomesOf t c path with ⟨e | outcomes, t'⟩
  · rfl
  · cases json <;> rfl

end CommandLine

end HeaderReflection
