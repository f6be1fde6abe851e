/-
  HeaderReflection.EditDistance

  The number of single-byte insertions, deletions and substitutions between
  two byte strings. The table of distances between their beginnings is filled
  row by row.
-/

namespace HeaderReflection

namespace EditDistance

/-- The cells of a row behind the cell `left`. `diagonal` and `above` stand over them: the cell over
`left` and those to its right, one for each byte of `b`. -/
def rowFrom (x : UInt8) (left diagonal : Nat) : (b : List UInt8) → (above : List Nat) → List Nat
  | y :: b, up :: above =>
    let cell := min (min (up + 1) (left + 1)) (diagonal + if x == y then 0 else 1)
    cell :: rowFrom x cell up b above
  | _, _ => []

/-- The row below `above`, for one more byte `x` of the first string. -/
def nextRow (b : List UInt8) (above : List Nat) (x : UInt8) : List Nat :=
  match above with
  | [] => []
  | corner :: above => (corner + 1) :: rowFrom x (corner + 1) corner b above

/-- The row for a first string without bytes. -/
def firstRow (b : List UInt8) : List Nat :=
  List.range (b.length + 1)

end EditDistance

/-- The number of edits that turn `a` into `b`. -/
def editDistance (a b : List UInt8) : Nat :=
  (a.foldl (EditDistance.nextRow b) (EditDistance.firstRow b)).getLastD 0

end HeaderReflection
