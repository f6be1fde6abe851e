/-
  HeaderReflection.Ignore.Glob.Reader

  Reading the text of a pattern: stars, classes in brackets, branches in
  braces, and a backslash before what stands for itself.
-/
import HeaderReflection.Ignore.Fault
import HeaderReflection.Ignore.Glob

namespace HeaderReflection.Ignore

/-! ## Character classes -/

/-- The byte ranges of a range of characters. Of characters with several bytes the last byte of the
first one and the first byte of the last one are the ends of a range, and the others stand alone. -/
def byteRanges (lo hi : Char) : List (UInt8 × UInt8) :=
  let single (bs : List UInt8) := bs.map fun b => (b, b)
  let first := String.utf8EncodeChar lo
  let last := String.utf8EncodeChar hi
  if lo == hi then single first
  else single first.dropLast ++ [(first.getLastD 0, last.headD 0)] ++ single (last.drop 1)

/-- What stands behind an opening bracket. -/
inductive ClassReading
  /-- No bracket closes it. -/
  | unclosed
  /-- A range ends before it starts. -/
  | invalid (lo hi : Char)
  | closed (ranges : List (Char × Char)) (rest : Text)

/-- Reads the ranges of a class up to its closing bracket, the last one first. `atStart` says that a
bracket or hyphen stands for itself, and `inRange` that the last range has its end to come. -/
def readClass (atStart inRange : Bool) (ranges : List (Char × Char)) : Text → ClassReading
  | [] => .unclosed
  | c :: r =>
    if c == ']' && !atStart then
      .closed (if inRange then ('-', '-') :: ranges else ranges) r
    else if c == '-' && !atStart && !inRange then readClass false true ranges r
    else
      match inRange, ranges with
      | true, (lo, _) :: ranges =>
        if c < lo then .invalid lo c else readClass false false ((lo, c) :: ranges) r
      | _, _ => readClass false false ((c, c) :: ranges) r

/-! ## Patterns -/

/-- A pattern that is being read. Parts and branches are listed with the last one first. -/
structure GlobReading where
  /-- The parts of the pattern or branch that is being read. -/
  parts : List GlobPart
  /-- The branches before it, if it stands in braces. -/
  branches : List Glob
  /-- The parts and branches of the patterns around the braces. -/
  outer : List (List GlobPart × List Glob)
  /-- Has a bracket turned out to have no partner, so that all brackets stand for themselves? -/
  plainBrackets : Bool

namespace GlobReading

variable (g : GlobReading)

/-- Adds a part. -/
def push (p : GlobPart) : GlobReading :=
  { g with parts := p :: g.parts }

/-- Adds a character that stands for itself. -/
def pushChar (c : Char) : GlobReading :=
  g.push (.literal (String.utf8EncodeChar c))

/-- Enters braces. -/
def enter : GlobReading :=
  { g with parts := [], branches := [], outer := (g.parts, g.branches) :: g.outer }

/-- Starts the next branch. -/
def nextBranch : GlobReading :=
  { g with parts := [], branches := g.parts.reverse :: g.branches }

/-- Leaves braces. Branches that match only the empty text are dropped. -/
def leave : Except GlobError GlobReading :=
  match g.outer with
  | [] => .error .unopenedBrace
  | (parts, branches) :: outer =>
    let all := (g.parts.reverse :: g.branches).reverse
    .ok { g with
      parts := .either (all.filter fun b => !b.all GlobPart.isVoid) :: parts
      branches := branches
      outer := outer }

/-- The pattern that was read, if all braces are closed. -/
def finish : Except GlobError Glob :=
  if g.outer.isEmpty then .ok g.parts.reverse else .error .unclosedBrace

/-- Puts directories in place of the slash before two stars; directories already there stay. -/
def pushDirs (atEnd : Bool) : GlobReading :=
  match g.parts with
  | .leadingDirs :: _ => g
  | .trailingDirs :: _ => g
  | _ :: parts => { g with parts := (if atEnd then .trailingDirs else .middleDirs) :: parts }
  | [] => g

/-- Reads two stars that follow the character `before`; gives the text behind them and the last
character that was read. -/
def readStars (before : Option Char) (r : Text) : GlobReading × Option Char × Text :=
  let plain := ((g.push .anyName).push .anyName, some '*', r)
  -- At the start of a pattern or of a branch.
  if g.parts.isEmpty then
    match r with
    | [] => (g.push .leadingDirs, some '*', [])
    | c :: rest => if c == '/' then (g.push .leadingDirs, some '/', rest) else plain
  -- In the middle of a name each of them is a star of its own.
  else if before != some '/'
      && (g.outer.isEmpty || (before != some ',' && before != some '{')) then plain
  -- Behind a slash.
  else
    match r with
    | [] => (g.pushDirs true, some '*', [])
    | c :: rest =>
      if c == '/' then (g.pushDirs false, some '/', rest)
      else if (c == ',' || c == '}') && !g.outer.isEmpty then (g.pushDirs true, some '*', r)
      else plain

/-- Reads a class behind its opening bracket. Without a closing bracket it stands for itself. -/
def readBracket (r : Text) : Except GlobError (GlobReading × Text) :=
  let negated := r.head? == some '!' || r.head? == some '^'
  match readClass true false [] (if negated then r.drop 1 else r) with
  | .closed ranges rest =>
    .ok (g.push (.oneOf negated (ranges.reverse.flatMap fun (lo, hi) => byteRanges lo hi)), rest)
  | .unclosed => .ok ({ g.pushChar '[' with plainBrackets := true }, r)
  | .invalid lo hi => .error (.invalidRange lo hi)

/-- Reads the rest of a pattern behind the character `before`. Every step takes a character, so the
length of the text bounds their number. -/
def read (bound : Nat) (g : GlobReading) (before : Option Char) (s : Text) :
    Except GlobError Glob :=
  match bound, s with
  | 0, _ => g.finish
  | _ + 1, [] => g.finish
  | bound + 1, c :: r =>
    if c == '?' then read bound (g.push .anyByte) (some c) r
    else if c == '*' then
      if r.head? == some '*' then
        let (g, before, r) := g.readStars before (r.drop 1)
        read bound g before r
      else read bound (g.push .anyName) (some c) r
    else if c == '[' && !g.plainBrackets then do
      let (g, rest) ← g.readBracket r
      read bound g (some (if g.plainBrackets then '[' else ']')) rest
    else if c == '{' then read bound g.enter (some c) r
    else if c == '}' then do read bound (← g.leave) (some c) r
    else if c == ',' && !g.outer.isEmpty then read bound g.nextBranch (some c) r
    else if c == '\\' then
      match r with
      | [] => .error .danglingBackslash
      | x :: r => read bound (g.pushChar x) (some x) r
    else read bound (g.pushChar c) (some c) r

end GlobReading

/-- The pattern that a text writes. -/
def Glob.read (s : Text) : Except GlobError Glob :=
  GlobReading.read s.length ⟨[], [], [], false⟩ none s

end HeaderReflection.Ignore
