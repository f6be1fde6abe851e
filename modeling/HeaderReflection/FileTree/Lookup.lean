/-
  HeaderReflection.FileTree.Lookup

  From paths to places: a path is followed name by name and through symbolic
  links. What comes before a slash has to be a directory.
-/
import HeaderReflection.FileTree

namespace HeaderReflection.FileTree

variable (t : FileTree)

/-! ## Following a path -/

/-- No path follows more links than this. -/
def maxLinks : Nat := 40

/-- No name has more bytes than this. -/
def maxNameSize : Nat := 255

/-- Every path has fewer bytes than this. -/
def pathSizeLimit : Nat := 4096

/-- The names on a path. A slash at its end asks for a directory, like a last step to the directory
itself. -/
def steps (p : Path) : List Text :=
  let names := p.segments.filter (!·.isEmpty)
  if p.getLast? == some '/' then names ++ [['.']] else names

/-- The place that the names lead to from the directory `here`, through at most `links` symbolic
links. The last name need not be there, and if it is a link that is followed only on demand. -/
def walk (followLast : Bool) (links : Nat) (here : Place) : List Text → Except FileError Place
  | [] => .ok here
  | name :: rest =>
    if name == ['.'] then walk followLast links here rest
    else if name == ['.', '.'] then walk followLast links here.dropLast rest
    else if maxNameSize < Text.size name then .error .nameTooLong
    else match t.entry? (here ++ [name]) with
      | none => if rest.isEmpty then .ok (here ++ [name]) else .error .notFound
      | some (.file _) => if rest.isEmpty then .ok (here ++ [name]) else .error .notDirectory
      | some .dir => walk followLast links (here ++ [name]) rest
      | some (.link target) =>
        if rest.isEmpty && !followLast then .ok (here ++ [name])
        else match links with
          | 0 => .error .tooManyLinks
          | links + 1 =>
            if target.isEmpty then .error .notFound
            -- The names of the target come before those that stand behind the link.
            else walk followLast links (if target.isAbsolute then [] else here)
              (steps target ++ rest)
termination_by names => (links, names.length)

/-- The place that a path leads to. A link at its end is followed only on demand. -/
def locate (followLast : Bool) (p : Path) : Except FileError Place :=
  if p.contains '\x00' then .error .nulInName
  else if p.isEmpty then .error .notFound
  else if pathSizeLimit ≤ p.size then .error .nameTooLong
  else walk t followLast maxLinks (if p.isAbsolute then [] else t.workDir) (steps p)

/-! ## Looking -/

/-- What a path leads to, behind all links. -/
def status (p : Path) : Except FileError Entry := do
  let place ← t.locate true p
  match t.entry? place with
  | some e => return e
  | none => throw .notFound

/-- Does the path lead to anything? -/
def exists? (p : Path) : Bool :=
  match t.status p with
  | .ok _ => true
  | .error _ => false

/-- Does the path lead to a file? -/
def isFile (p : Path) : Bool :=
  match t.status p with
  | .ok (.file _) => true
  | _ => false

/-- Does the path lead to a directory? -/
def isDir (p : Path) : Bool :=
  match t.status p with
  | .ok .dir => true
  | _ => false

/-! ## Reading -/

/-- The contents of the file that a path leads to. -/
def readBytes (p : Path) : Except FileError ByteArray := do
  match ← t.status p with
  | .file contents => return contents
  | .dir => throw .isDirectory
  | .link _ => throw .tooManyLinks

/-- The text of the file that a path leads to. -/
def readText (p : Path) : Except FileError Text := do
  match Text.decode? (← t.readBytes p) with
  | some text => return text
  | none => throw .notText

end HeaderReflection.FileTree
