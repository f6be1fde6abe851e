/-
  HeaderReflection.FileTree

  A tree of files, directories and symbolic links, as a map from places to
  entries. A place is the list of the names that lead to it from the root,
  and the places of a directory's entries follow that of the directory in
  order. Names and paths are Unicode texts.
-/
import HeaderReflection.Path
import Std.Data.ExtTreeMap

namespace HeaderReflection

/-- The names that lead from the root to an entry. -/
abbrev Place := List Text

/-- The path that names a place from the root. -/
def pathTo (place : Place) : Path :=
  '/' :: Text.joinWith ['/'] place

instance : Std.TransCmp (compare : Place → Place → Ordering) :=
  inferInstance

instance decidableEqContents : DecidableEq ByteArray :=
  ByteArray.instDecidableEq

/-- What stands at a place. -/
inductive Entry
  | file (contents : ByteArray)
  | link (target : Path)
  | dir
  deriving DecidableEq

/-- A file tree with the directory in which relative paths start. -/
structure FileTree where
  entries : Std.ExtTreeMap Place Entry
  workDir : Place

/-- Why a file cannot be reached, read or changed. -/
inductive FileError
  | notFound
  | notDirectory
  | isDirectory
  | tooManyLinks
  | nameTooLong
  | nulInName
  | notText
  deriving DecidableEq, Repr

/-- The sentence shown to the user. -/
def FileError.message : FileError → String
  | notFound => "No such file or directory (os error 2)"
  | notDirectory => "Not a directory (os error 20)"
  | isDirectory => "Is a directory (os error 21)"
  | tooManyLinks => "Too many levels of symbolic links (os error 40)"
  | nameTooLong => "File name too long (os error 36)"
  | nulInName => "file name contained an unexpected NUL byte"
  | notText => "stream did not contain valid UTF-8"

namespace FileTree

variable (t : FileTree)

/-! ## Entries -/

/-- What stands at a place; the root is a directory. -/
def entry? (place : Place) : Option Entry :=
  if place.isEmpty then some .dir else t.entries[place]?

/-- The tree with an entry at a place. -/
def set (place : Place) (e : Entry) : FileTree :=
  { t with entries := t.entries.insert place e }

/-- The tree without the entry at a place. -/
def erase (place : Place) : FileTree :=
  { t with entries := t.entries.erase place }

/-- The names and entries of a directory, in the order of the names' bytes. -/
def children (place : Place) : List (Text × Entry) :=
  t.entries.toList.filterMap fun (p, e) =>
    if p.dropLast == place then p.getLast?.map fun name => (name, e) else none

/-- All entries below a directory, by the names that lead to them from there. -/
def below (place : Place) : List (Place × Entry) :=
  t.entries.toList.filterMap fun (p, e) =>
    if place.isPrefixOf p && place.length < p.length then some (p.drop place.length, e) else none

end FileTree

end HeaderReflection
