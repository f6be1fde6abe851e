/-
  HeaderReflection.Walk

  The headers below a directory. The walk goes depth first and in the order of
  the names. It leaves out hidden entries, directories to skip, symbolic links
  and what ignore files leave out; the root itself is never left out. Ignore
  files above the root have a say too, and have to be right.
-/
import HeaderReflection.Config
import HeaderReflection.FileTree.Lookup
import HeaderReflection.Ignore.Rules
import HeaderReflection.RunError

namespace HeaderReflection

namespace Walk

variable (t : FileTree)

/-! ## Ignore files -/

/-- The name of an ignore file. -/
def ignoreFileName : Text :=
  ".ignore".toList

/-- A directory's path and the rules of the ignore file in it. -/
structure RulesAt where
  directory : Path
  rules : List Ignore.Rule

/-- The path from the rules' directory, found by comparing the texts of the paths. A path of one name
is taken as it stands, and if the directory is the current one, so is every path. -/
def RulesAt.relative (a : RulesAt) (p : Path) : Path :=
  let directory := a.directory.dropHere
  let p := p.dropHere
  if directory.isHere || !p.contains '/' then p else directory.below p

/-- What the rules say of a path. -/
def RulesAt.verdict? (a : RulesAt) (isDir : Bool) (p : Path) : Option Ignore.Verdict :=
  Ignore.verdict? a.rules isDir (a.relative p)

/-- The rules of the ignore file in the directory at a place, whose path is `path`, and what is wrong
with that file; one that cannot be read has neither. -/
def readRules (place : Place) (path : Path) : RulesAt × List Ignore.Fault :=
  let contents := do
    let file ← t.walk true FileTree.maxLinks place [ignoreFileName]
    match t.entry? file with
    | some (.file contents) => return contents
    | _ => throw FileError.notFound
  match contents with
  | .ok contents =>
    let (rules, faults) := Ignore.readFile (path.join ignoreFileName) contents
    (⟨path, rules⟩, faults)
  | .error _ => (⟨path, []⟩, [])

/-- What is read in the directories above a place, from the root on. -/
def readAbove (place : Place) : List (RulesAt × List Ignore.Fault) :=
  (List.range place.length).map fun n => readRules t (place.take n) (pathTo (place.take n))

/-! ## What is left out -/

/-- A directory that is walked, with the rules above it, those of the nearest directory first. -/
structure Start where
  path : Path
  place : Place
  above : List RulesAt

/-- The absolute path of what the walk knows by another path. -/
def Start.absolute (s : Start) (p : Path) : Path :=
  (pathTo s.place).join (if s.path.isHere then p else s.path.dropHere.below p)

/-- What the nearest ignore file that speaks of a path says of it: one of those that the walk came by,
or else one of those above its start, to which the path is an absolute one. -/
def verdict? (start : Start) (rules : List RulesAt) (isDir : Bool) (p : Path) :
    Option Ignore.Verdict :=
  let p := p.dropHere
  let absolute := start.absolute p
  rules.findSome? (·.verdict? isDir p) <|> start.above.findSome? (·.verdict? isDir absolute)

/-- Is the name that of a hidden entry? -/
def isHidden (name : Text) : Bool :=
  name.head? == some '.'

/-- Is the entry left out? Ignore files may keep a hidden entry. -/
def isLeftOut (start : Start) (rules : List RulesAt) (isDir : Bool) (directory : Path)
    (name : Text) : Bool :=
  match verdict? start rules isDir (directory.join name) with
  | some .drop => true
  | some .keep => false
  | none => isHidden name

/-! ## The walk -/

/-- The headers below the directory at a place, whose path is `path`. The ignore files of `rules` are
those on the way to it; `bound` is the number of directories that may be nested in each other. -/
def headersBelow (c : Config) (start : Start) (bound : Nat) (rules : List RulesAt) (place : Place)
    (path : Path) : List Path :=
  match bound with
  | 0 => []
  | bound + 1 =>
    -- What is wrong with an ignore file below the start is not reported.
    let rules := (readRules t place path).1 :: rules
    (t.children place).flatMap fun (name, entry) =>
      match entry with
      | .file _ =>
        if !isLeftOut start rules false path name && c.isInputName name then [path.join name] else []
      | .dir =>
        -- Nothing below a directory that is left out can be brought back.
        if isLeftOut start rules true path name || c.skips name then []
        else headersBelow c start bound rules (place ++ [name]) (path.join name)
      | .link _ => []

/-- Does the path stand for the standard input? A walk finds nothing there. -/
def isStandardInput (p : Path) : Bool :=
  Path.trimSegments p.segments == [['-']]

end Walk

/-- The headers below a root in the order of the walk. A root that is a file is its own only header.
No directories are nested deeper than there are entries in the tree. -/
def collectHeaders (t : FileTree) (c : Config) (root : Path) : Except RunError (List Path) :=
  if Walk.isStandardInput root then .ok []
  else match t.locate true root with
    | .error e => .error (.walk root (.unreadable e))
    | .ok place =>
      match t.entry? place with
      | none => .error (.walk root (.unreadable .notFound))
      | some .dir =>
        let above := Walk.readAbove t place
        let faults := above.flatMap (·.2)
        if faults.isEmpty then
          let start : Walk.Start := ⟨root, place, (above.map (·.1)).reverse⟩
          .ok (Walk.headersBelow t c start (t.entries.size + 1) [] place root)
        else .error (.walk root (.ignoreFiles faults))
      | some _ => .ok (if c.isInputName (root.fileName?.getD root) then [root] else [])

end HeaderReflection
