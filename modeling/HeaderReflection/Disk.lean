/-
  HeaderReflection.Disk

  The disk as a file tree: the part of it that a run can look at is read before
  the run, and what the run changed in the tree is written back after it.
-/
import HeaderReflection.CommandLine

namespace HeaderReflection.Disk

open CommandLine

/-! ## Places -/

/-- The file at a place, as the disk knows it. -/
def fileAt (place : Place) :=
  IO.FS.DirEntry.path ⟨"/", String.ofList (pathTo place)⟩

/-- The place that an absolute path without links and dots names. -/
def placeOf (path : String) : Place :=
  (Path.segments path.toList).filter (!·.isEmpty)

/-! ## Reading -/

/-- Adds the directory or the file at a place, as yet without contents. -/
def addPlain (t : FileTree) (place : Place) : IO FileTree := do
  match ← (fileAt place).symlinkMetadata.toBaseIO with
  | .ok info =>
    match info.type with
    | .dir => return t.set place .dir
    | .file => return t.set place (.file .empty)
    | _ => return t
  | .error _ => return t

/-- Adds what stands at a place. A link is added with the directories to its last target. A link in a
circle leads to itself, and any other that leads nowhere has an empty target. -/
def addEntry (t : FileTree) (place : Place) : IO FileTree := do
  match ← (fileAt place).symlinkMetadata.toBaseIO with
  | .ok info =>
    if info.type == .symlink then
      match ← (IO.FS.realPath (fileAt place)).toBaseIO with
      | .ok path =>
        let target := placeOf path.toString
        let t := t.set place (.link (pathTo target))
        (List.range target.length).foldlM (fun t n => addPlain t (target.take (n + 1))) t
      | .error (.invalidArgument ..) => return t.set place (.link (pathTo place))
      | .error _ => return t.set place (.link [])
    else addPlain t place
  | .error _ => return t

/-- Adds what stands on the way to a path and at its end. -/
def addPath (t : FileTree) (p : Path) : IO FileTree :=
  (FileTree.pathsTo p).foldlM (fun t upTo =>
    match t.locate false upTo with
    | .ok place => addEntry t place
    | .error _ => pure t) t

/-- Adds a file with its contents. -/
def addFile (t : FileTree) (p : Path) : IO FileTree := do
  let t ← addPath t p
  match t.locate true p with
  | .error _ => return t
  | .ok place =>
    if t.entry? place == some .dir || !(← (fileAt place).pathExists) then return t
    else return t.set place (.file (← IO.FS.readBinFile (fileAt place)))

/-- Adds what lies below the directory at a place, `depth` directories deep. -/
def addBelow (t : FileTree) (place : Place) : Nat → IO FileTree
  | 0 => return t
  | depth + 1 => do
    (← (fileAt place).readDir).foldlM (fun t found => do
      let inner := place ++ [found.fileName.toList]
      let t ← addEntry t inner
      if t.entry? inner == some .dir then addBelow t inner depth else return t) t

/-- Adds the directory at a place with the ignore files that a walk through it reads. -/
def addWalk (t : FileTree) (place : Place) : IO FileTree := do
  let t ← addBelow t place FileTree.pathSizeLimit
  let above := (List.range place.length).map place.take
  let inner := (t.below place).filterMap fun (names, e) =>
    if e == .dir then some (place ++ names) else none
  (above ++ place :: inner).foldlM (fun t directory =>
    addFile t (pathTo (directory ++ [Walk.ignoreFileName]))) t

/-- Adds the contents of a header and what stands in the place of its companion. -/
def addHeader (c : Config) (t : FileTree) (input : Path) : IO FileTree := do
  let t ← match c.companionPath? input with
    | some output => addPath t output
    | none => pure t
  if t.isFile input then addFile t input else return t

/-- The part of the disk that a run with these options can look at. -/
def snapshot (o : Options) : IO FileTree := do
  let t ← addPath ⟨∅, placeOf (← IO.currentDir).toString⟩ o.path
  let t ← match t.locate true o.path with
    | .ok place => if t.isDir o.path then addWalk t place else pure t
    | .error _ => pure t
  let t ← addFile t (o.config.getD ((configDir t o.path).join Config.fileName))
  match resolveConfig t o with
  | (_, .error _) => return t
  | (_, .ok c) =>
    match headersOf t c o.path with
    | .error _ => return t
    | .ok headers => headers.foldlM (addHeader c) t

/-! ## Writing -/

/-- Removes and writes the files in which the tree `new` differs from the tree `old`. -/
def update (old new : FileTree) : IO Unit := do
  -- Removals come first, so that nothing is written through an old link.
  for (place, e) in old.entries.toList do
    if new.entries[place]? != some e then IO.FS.removeFile (fileAt place)
  for (place, e) in new.entries.toList do
    if old.entries[place]? != some e then
      match e with
      | .file contents => IO.FS.writeBinFile (fileAt place) contents
      | _ => pure ()

end HeaderReflection.Disk
