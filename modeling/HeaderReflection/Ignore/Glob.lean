/-
  HeaderReflection.Ignore.Glob

  The patterns of ignore files. A star or a question mark does not match a
  slash; two stars between slashes, or at an end, match any number of
  directories. Patterns may be nested in braces up to a limit.
-/
import HeaderReflection.Text

namespace HeaderReflection.Ignore

/-- The byte that separates the names of a path. -/
def slash : UInt8 := 0x2f

/-! ## Patterns -/

/-- A part of a pattern. -/
inductive GlobPart
  /-- The bytes of a character. -/
  | literal (bytes : List UInt8)
  /-- One byte other than a slash. -/
  | anyByte
  /-- Any bytes other than slashes. -/
  | anyName
  /-- Directories, at the start of the pattern. -/
  | leadingDirs
  /-- Everything below, at the end of the pattern. -/
  | trailingDirs
  /-- A slash, or directories between two slashes. -/
  | middleDirs
  /-- One byte in the given ranges, or outside of them. -/
  | oneOf (negated : Bool) (ranges : List (UInt8 × UInt8))
  /-- Any one of several patterns; without any it matches the empty text. -/
  | either (branches : List (List GlobPart))

/-- A pattern. -/
abbrev Glob := List GlobPart

/-- Does the part stand for braces without branches, which match nothing but the empty text? -/
def GlobPart.isVoid : GlobPart → Bool
  | .either [] => true
  | _ => false

/-! ## Nesting -/

/-- Number of items that a part adds to the sequence it stands in. -/
def GlobPart.width : GlobPart → Nat
  | .literal bytes => bytes.length
  | .trailingDirs => 2
  | .either [] => 0
  | _ => 1

/-- Depth of a sequence whose parts have depths up to `inner`: one item alone is no level. -/
def sequenceDepth (parts : List GlobPart) (inner : Nat) : Nat :=
  if parts.foldr (fun p n => p.width + n) 0 ≤ 1 then inner else inner + 1

mutual

/-- Number of levels in a part: each repetition, class, choice and group is one. -/
def GlobPart.depth : GlobPart → Nat
  | .literal _ => 0
  | .anyByte => 1
  | .anyName => 2
  | .leadingDirs => 4
  | .trailingDirs => 1
  | .middleDirs => 4
  | .oneOf _ ranges => if ranges.length ≤ 1 then 1 else 2
  | .either [] => 0
  | .either [b] => 1 + sequenceDepth b (partsDepth b)
  | .either (b :: c :: rest) =>
    2 + max (sequenceDepth b (partsDepth b)) (branchesDepth (c :: rest))

/-- The depth of the deepest part. -/
def partsDepth : List GlobPart → Nat
  | [] => 0
  | p :: ps => max p.depth (partsDepth ps)

/-- The depth of the deepest branch. -/
def branchesDepth : List (List GlobPart) → Nat
  | [] => 0
  | b :: rest => max (sequenceDepth b (partsDepth b)) (branchesDepth rest)

end

namespace Glob

/-- A pattern of more levels cannot be used, nor can the ignore file that it stands in. -/
def depthLimit : Nat := 250

/-- Has the pattern too many levels? The pattern itself is the first one. -/
def isTooDeep (g : Glob) : Bool :=
  depthLimit < 1 + partsDepth g

/-! ## Fixed texts -/

/-- Is the part the given byte? -/
def isByte (b : UInt8) : GlobPart → Bool
  | .literal bytes => bytes == [b]
  | _ => false

/-- Does the part stand for itself? -/
def isLiteral : GlobPart → Bool
  | .literal _ => true
  | _ => false

/-- Is the pattern a fixed text, in any directory or in a certain one? -/
def isFixed (g : Glob) : Bool :=
  let parts := match g with
    | .leadingDirs :: parts => parts
    | _ => g
  !parts.isEmpty && parts.all isLiteral

/-- Does the pattern end with a point and fixed characters other than a slash? -/
def hasFixedExtension (g : Glob) : Bool :=
  g.reverse.any (isByte 0x2e) &&
    (g.reverse.takeWhile fun p => !isByte 0x2e p).all fun p => isLiteral p && !isByte slash p

/-- The first of several patterns that is too deep, by its number among those that are neither a fixed
text nor end with one. -/
def firstTooDeep? (globs : List Glob) : Option Nat :=
  if globs.any isTooDeep then
    some (((globs.filter fun g => !g.isFixed && !g.hasFixedExtension).findIdx? isTooDeep).getD 0)
  else none

end Glob

end HeaderReflection.Ignore
