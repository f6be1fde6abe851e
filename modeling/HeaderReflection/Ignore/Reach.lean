/-
  HeaderReflection.Ignore.Reach

  Patterns matched against the bytes of a path. All places that a pattern can
  get to are followed at once, so that no place is looked at twice for the
  same part.
-/
import HeaderReflection.Ignore.Glob

namespace HeaderReflection.Ignore

/-- The places of a path where a match can stand: a truth value for the place before each byte, and
one for the end. -/
abbrev Reach := List Bool

namespace Reach

/-! ## Steps -/

/-- The places that are in either reach. -/
def union (r q : Reach) : Reach :=
  r.zipWith (· || ·) q

/-- The places behind one byte that passes the test. -/
def step (test : UInt8 → Bool) (path : List UInt8) (r : Reach) : Reach :=
  false :: path.zipWith (fun c here => here && test c) r

/-- The places behind any number of bytes that pass the test; `before` tells whether one of them leads
here. -/
def spread (test : UInt8 → Bool) (before : Bool) : List UInt8 → Reach → Reach
  | _, [] => []
  | [], here :: _ => [before || here]
  | c :: path, here :: r => (before || here) :: spread test ((before || here) && test c) path r

/-- The places behind a slash. -/
def stepSlash (path : List UInt8) (r : Reach) : Reach :=
  r.step (· == slash) path

/-- The places behind any bytes and a slash after them. -/
def spreadSlash (path : List UInt8) (r : Reach) : Reach :=
  stepSlash path (r.spread (fun _ => true) false path)

end Reach

/-! ## Matching -/

mutual

/-- The places that a part gets to from the places `r`. -/
def GlobPart.reach (path : List UInt8) : GlobPart → Reach → Reach
  | .literal bytes, r => bytes.foldl (fun r b => Reach.step (· == b) path r) r
  | .anyByte, r => r.step (· != slash) path
  | .anyName, r => r.spread (· != slash) false path
  | .leadingDirs, r => r.union (r.spreadSlash path)
  | .trailingDirs, r => (r.stepSlash path).spread (fun _ => true) false path
  | .middleDirs, r => (r.stepSlash path).union ((r.stepSlash path).spreadSlash path)
  | .oneOf negated ranges, r =>
    r.step (fun c => ranges.any (fun (lo, hi) => lo ≤ c && c ≤ hi) != negated) path
  | .either [], r => r
  | .either (b :: rest), r => (reachAll path b r).union (reachAny path rest r)

/-- The places that parts one after the other get to. -/
def reachAll (path : List UInt8) : List GlobPart → Reach → Reach
  | [], r => r
  | p :: ps, r => reachAll path ps (p.reach path r)

/-- The places that one of several patterns gets to. -/
def reachAny (path : List UInt8) : List (List GlobPart) → Reach → Reach
  | [], r => r.map fun _ => false
  | b :: rest, r => (reachAll path b r).union (reachAny path rest r)

end

/-- Does the pattern match the whole path? Leading directories alone match everything. -/
def Glob.matches (g : Glob) (path : List UInt8) : Bool :=
  match g with
  | [.leadingDirs] => true
  | _ => (reachAll path g (true :: path.map fun _ => false)).getLastD false

end HeaderReflection.Ignore
