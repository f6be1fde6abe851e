/-
  HeaderReflection.Ignore.Rules

  Ignore files. Each line is a rule that leaves paths out of a walk or, behind
  an exclamation mark, keeps them; the last rule that matches a path decides.
  Malformed lines are reported and have no rule.
-/
import HeaderReflection.Ignore.Glob.Reader
import HeaderReflection.Ignore.Reach
import HeaderReflection.Text.Blank
import HeaderReflection.Text.Search

namespace HeaderReflection.Ignore

/-- What a rule says of the paths that it matches. -/
inductive Verdict
  | drop
  | keep
  deriving DecidableEq, Repr

/-- A line of an ignore file. -/
structure Rule where
  verdict : Verdict
  /-- Does the rule speak of directories only? -/
  dirOnly : Bool
  glob : Glob

/-! ## Reading -/

/-- The line without the blanks at its end, unless the last one is escaped. -/
def trimLine (line : Text) : Text :=
  if "\\ ".toList.isSuffixOf line then line else Text.trimEnd line

/-- Takes the marks off the front of a line: the verdict, whether the pattern starts at the ignore
file's directory, and the pattern. -/
def readMarks (line : Text) : Verdict × Bool × Text :=
  if "\\!".toList.isPrefixOf line || "\\#".toList.isPrefixOf line then (.drop, false, line.drop 1)
  else
    let keeps := line.head? == some '!'
    let pattern := if keeps then line.drop 1 else line
    let anchored := pattern.head? == some '/'
    (if keeps then .keep else .drop, anchored, if anchored then pattern.drop 1 else pattern)

/-- Takes the slash that asks for directories off the end of a pattern, with a backslash before it. -/
def readDirMark (pattern : Text) : Bool × Text :=
  match pattern.reverse with
  | '/' :: '\\' :: r => (true, r.reverse)
  | '/' :: r => (true, r.reverse)
  | _ => (false, pattern)

/-- The pattern for the whole path. One without a slash may start in any directory, and one for
everything below a directory does not match that directory. -/
def wholePattern (anchored : Bool) (pattern : Text) : Text :=
  let anywhere := !anchored && !pattern.contains '/' && pattern != "**".toList
  let pattern := if anywhere then "**/".toList ++ pattern else pattern
  if "/**".toList.isSuffixOf pattern then pattern ++ "/*".toList else pattern

/-- The rule of a line; none for an empty line or a comment. -/
def Rule.ofLine (line : Text) : Except LineFault (Option Rule) :=
  let trimmed := trimLine line
  if line.head? == some '#' || trimmed.isEmpty then .ok none
  else
    let (verdict, anchored, pattern) := readMarks trimmed
    let (dirOnly, pattern) := readDirMark pattern
    match Glob.read (wholePattern anchored pattern) with
    | .ok glob => .ok (some ⟨verdict, dirOnly, glob⟩)
    | .error e => .error (.malformed trimmed e)

/-- The line without the line feed that ends it, or the carriage return and line feed. -/
def dropLineEnd (line : Text) : Text :=
  match line.reverse with
  | '\n' :: '\r' :: r => r.reverse
  | '\n' :: r => r.reverse
  | _ => line

/-- The lines of a file, up to the first one that is not valid UTF-8, in which nothing is read. -/
def linesOf (contents : ByteArray) : List (Option Text) :=
  let lines := (contents.toList.splitBy fun a _ => a != 0x0a).map fun l => Text.decode? ⟨l.toArray⟩
  let texts := lines.takeWhile Option.isSome
  texts.map (·.map dropLineEnd) ++ (lines.drop texts.length).take 1

/-- What each line of a file says. A byte order mark at the front of the first one is skipped. -/
def readLines (contents : ByteArray) : List (Except LineFault (Option Rule)) :=
  (linesOf contents).mapIdx fun i line =>
    match line with
    | none => .error .notText
    | some line => Rule.ofLine (if i == 0 then line.dropWhile (· == '\ufeff') else line)

/-- The faults of the lines, with the numbers of the lines. A line that is no text is passed over if
nothing else is wrong. -/
def faultsOf (file : Path) (lines : List (Except LineFault (Option Rule))) : List Fault :=
  let faults : List Fault := lines.zipIdx.filterMap fun (line, i) =>
    match line with
    | .ok _ => none
    | .error e => some (Fault.line file (i + 1) e)
  match faults with
  | [.line _ _ .notText] => []
  | _ => faults

/-- The rules of an ignore file and what is wrong with it. A pattern that is too deep takes all rules
away. -/
def readFile (file : Path) (contents : ByteArray) : List Rule × List Fault :=
  let lines := readLines contents
  let rules := lines.filterMap fun line => line.toOption.join
  let faults := faultsOf file lines
  match Glob.firstTooDeep? (rules.map (·.glob)) with
  | none => (rules, faults)
  | some number => ([], faults ++ [.tooDeep number])

/-! ## Matching -/

/-- What the rules say of a path from the ignore file's directory. -/
def verdict? (rules : List Rule) (isDir : Bool) (path : Path) : Option Verdict :=
  let bytes := Text.bytes path
  (rules.reverse.find? fun r => (!r.dirOnly || isDir) && r.glob.matches bytes).map (·.verdict)

end HeaderReflection.Ignore
