/-
  HeaderReflection.Path

  Paths as texts. A path is cut at its slashes; empty segments and single dots
  say nothing, except at the front, where they tell an absolute path and a
  path that starts in the current directory.
-/
import HeaderReflection.Text

namespace HeaderReflection

/-- A path as it is written. -/
abbrev Path := Text

namespace Path

/-! ## Segments -/

/-- The segments between the slashes. -/
def segments : Path → List Text
  | [] => [[]]
  | c :: r =>
    if c == '/' then [] :: segments r
    else match segments r with
      | [] => [[c]]
      | s :: rest => (c :: s) :: rest

/-- Does the path start at the root? -/
def isAbsolute (p : Path) : Bool :=
  p.head? == some '/'

/-- Says the segment nothing, unless it stands at the front? -/
def isRedundant (segment : Text) : Bool :=
  segment.isEmpty || segment == ['.']

/-- The segments without the redundant ones at their end; the front segment stays. -/
def trimSegments : List Text → List Text
  | [] => []
  | front :: rest => front :: (rest.reverse.dropWhile isRedundant).reverse

/-- Writes trimmed segments as a path. -/
def ofSegments : List Text → Path
  | [[]] => ['/']
  | segs => Text.joinWith ['/'] segs

/-- The path without its last segment, and that segment; none if the path has no segment to drop. -/
def split? (p : Path) : Option (Path × Text) :=
  match (trimSegments (segments p)).reverse with
  | [] => none
  | [only] => if only.isEmpty then none else some ([], only)
  | last :: before => some (ofSegments (trimSegments before.reverse), last)

/-! ## The current directory -/

/-- The path without a dot and slash at its front; only one pair is dropped. -/
def dropHere : Path → Path
  | '.' :: '/' :: p => p
  | p => p

/-- Is the path a dot for the current directory, with nothing but redundant segments behind it? -/
def isHere (p : Path) : Bool :=
  trimSegments (segments p) == [['.']]

/-- What a path has behind the text of a directory's path and the slash after it, if it begins so. -/
def below (directory p : Path) : Path :=
  if directory.isPrefixOf p then
    match p.drop directory.length with
    | '/' :: r => r
    | r => r
  else p

/-! ## Names -/

/-- The last segment, if it names an entry of the directory before it. -/
def fileName? (p : Path) : Option Text :=
  match p.split? with
  | some (_, last) => if last == ['.'] || last == ['.', '.'] then none else some last
  | none => none

/-- The path without its last segment. -/
def parent? (p : Path) : Option Path :=
  p.split?.map (·.1)

/-- The path that `q` names when it is read from the directory `p`. -/
def join (p q : Path) : Path :=
  if q.isAbsolute then q
  else if p.isEmpty || p.getLast? == some '/' then p ++ q
  else p ++ '/' :: q

/-- The path with another name in place of its file name. -/
def withFileName (p : Path) (name : Text) : Path :=
  match p.fileName? with
  | some _ => ((p.parent?).getD []).join name
  | none => p.join name

end Path

end HeaderReflection
