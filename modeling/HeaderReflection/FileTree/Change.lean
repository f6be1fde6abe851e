/-
  HeaderReflection.FileTree.Change

  The changes of a file tree. Writing goes through a link at the end of the
  path, and removing takes away the link itself.
-/
import HeaderReflection.FileTree.Lookup

namespace HeaderReflection.FileTree

variable (t : FileTree)

/-! ## Files -/

/-- Writes a file as a whole, new or in place of the old contents. -/
def writeFile (p : Path) (contents : ByteArray) : Except FileError FileTree := do
  let place ← t.locate true p
  match t.entry? place with
  | some .dir => throw .isDirectory
  | _ => return t.set place (.file contents)

/-- Takes away a file or a link. -/
def removeFile (p : Path) : Except FileError FileTree := do
  let place ← t.locate false p
  match t.entry? place with
  | none => throw .notFound
  | some .dir => throw .isDirectory
  | some _ => return t.erase place

/-! ## Directories and links -/

/-- Makes a directory where nothing stands yet. -/
def makeDir (p : Path) : Except FileError FileTree := do
  let place ← t.locate true p
  match t.entry? place with
  | none => return t.set place .dir
  | some .dir => return t
  | some _ => throw .notDirectory

/-- The paths to the directories on the way to a path, and the path itself. -/
def pathsTo (p : Path) : List Path :=
  let segments := p.segments
  (List.range segments.length).filterMap fun i =>
    let upTo := Text.joinWith ['/'] (segments.take (i + 1))
    if upTo.isEmpty then none else some upTo

/-- Makes a directory and those on the way to it. -/
def makeDirs (p : Path) : Except FileError FileTree :=
  (pathsTo p).foldlM makeDir t

/-- Makes a symbolic link where nothing stands yet. -/
def makeLink (target p : Path) : Except FileError FileTree := do
  let place ← t.locate false p
  match t.entry? place with
  | none => return t.set place (.link target)
  | some _ => throw .notDirectory

/-- Takes away what stands at a path, with everything below it. -/
def removeAll (p : Path) : Except FileError FileTree := do
  let place ← t.locate false p
  let gone := t.entries.keys.filter place.isPrefixOf
  return gone.foldl erase t

end HeaderReflection.FileTree
