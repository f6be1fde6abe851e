/-
  HeaderReflection.Toml.Document

  Reading a whole TOML document: keys, values, and the lines that fill its
  tables. A key is set once, and a table is opened once; dotted keys and
  headers may add to tables that are there only because they were named.
-/
import HeaderReflection.Toml.DateTable
import HeaderReflection.Toml.Strings

namespace HeaderReflection.Toml

/-! ## Keys -/

/-- Arrays and inline tables nested as deep as this, and keys of as many parts, are refused. -/
def nestingLimit : Nat := 80

/-- May the character stand in a key without quotes? -/
def isBareKey (c : Char) : Bool :=
  c.isAlphanum || c == '_' || c == '-'

/-- Takes one part of a key. -/
def keyPart : Reader Text
  | [] => none
  | c :: r =>
    if c == '"' || c == '\'' then lineString (c :: r)
    else
      let name := (c :: r).takeWhile isBareKey
      if name.isEmpty then none else some (name, (c :: r).drop name.length)

/-- Takes the parts of a key, with points between them and spaces around them. -/
def keyParts : (bound : Nat) → Reader (List Text)
  | 0, _ => none
  | bound + 1, s => do
    let (part, r) ← keyPart (skipSpaces s)
    -- Spaces may stand on both sides of a point, and behind the key.
    match skipSpaces r with
    | '.' :: r => do
      let (rest, r) ← keyParts bound r
      return (part :: rest, r)
    | r => return ([part], r)

/-- Takes a key of less parts than the nesting limit. -/
def key : Reader (List Text) := fun s => do
  let (parts, r) ← keyParts (s.length + 1) s
  if parts.length < nestingLimit then return (parts, r) else none

/-! ## Tables -/

/-- Changes the table that a path leads to. On the way a missing table is made, of an array of tables
the last one is taken, and an inline table is closed. Dotted keys lead only through tables that are
there because they were named. -/
def updateAt (byKey : Bool) (change : TableKind → Table → Option Table) :
    List Text → TableKind → Table → Option Table
  | [], kind, t => change kind t
  | k :: path, _, t =>
    match t.get? k with
    | none => do
      let kind := if byKey then .dotted else .implied
      let inner ← updateAt byKey change path kind []
      return t.add k (.table kind inner)
    | some (.table kind inner) =>
      if kind == .inline || (byKey && !kind.isImplicit) then none
      else do
        let inner ← updateAt byKey change path kind inner
        return t.replace k (.table kind inner)
    | some (.tables elements) => do
      let inner ← updateAt byKey change path .header (← elements.getLast?)
      return t.replace k (.tables (elements.dropLast ++ [inner]))
    | some _ => none

/-- Sets a key that is not there yet. A key with points belongs to a table made by such keys, and one
without to a table that is not. -/
def setKey (path : List Text) (v : Value) (kind : TableKind) (t : Table) : Option Table := do
  let last ← path.getLast?
  let before := path.dropLast
  let set (kind : TableKind) (t : Table) : Option Table :=
    if (kind == .dotted) == before.isEmpty || (t.get? last).isSome then none
    else some (t.add last v)
  updateAt true set before kind t

/-- Opens the table of a header. One that was named before moves behind the tables beside it. -/
def openTable (path : List Text) (t : Table) : Option Table := do
  let last ← path.getLast?
  let opening (_ : TableKind) (t : Table) : Option Table :=
    match t.get? last with
    | none => some (t.add last (.table .header []))
    | some (.table .implied inner) => some ((t.erase last).add last (.table .header inner))
    | some _ => none
  updateAt false opening path.dropLast .header t

/-- Opens one more table of an array of tables. -/
def openElement (path : List Text) (t : Table) : Option Table := do
  let last ← path.getLast?
  let opening (_ : TableKind) (t : Table) : Option Table :=
    match t.get? last with
    | none => some (t.add last (.tables [[]]))
    | some (.tables elements) => some (t.replace last (.tables (elements ++ [[]])))
    | some _ => none
  updateAt false opening path.dropLast .header t

/-! ## Values -/

/-- Takes the items of an array and its closing bracket. A comma may stand behind the last item. -/
def arrayItems (value : Reader Value) : (bound : Nat) → Reader (List Value)
  | 0, _ => none
  | bound + 1, s =>
    match skipAll s with
    | ']' :: r => some ([], r)
    | s => do
      let (v, r) ← value s
      match skipAll r with
      | ',' :: r => do
        let (rest, r) ← arrayItems value bound r
        return (v :: rest, r)
      | ']' :: r => return ([v], r)
      | _ => none

/-- Takes a key, an equals sign and a value. -/
def keyValue (value : Reader Value) : Reader (List Text × Value) := fun s => do
  let (path, r) ← key s
  let r ← expect ['='] r
  let (v, r) ← value (skipSpaces r)
  return ((path, v), r)

/-- Takes the entries of an inline table and its closing brace. -/
def inlineEntries (value : Reader Value) : (bound : Nat) → Table → Reader Table
  | 0, _, _ => none
  | bound + 1, t, s => do
    let ((path, v), r) ← keyValue value s
    let t ← setKey path v .inline t
    match skipSpaces r with
    | ',' :: r => inlineEntries value bound t r
    | '}' :: r => return (t, r)
    | _ => none

/-- Takes an inline table behind its opening brace. -/
def inlineTable (value : Reader Value) : Reader Table := fun s =>
  match skipSpaces s with
  | '}' :: r => some ([], r)
  | _ => inlineEntries value (s.length + 1) [] s

/-- Takes a value in which arrays and inline tables are nested to at most the given depth. -/
def value : (depth : Nat) → Reader Value
  | _, [] => none
  | depth, c :: r =>
    if c == '"' || c == '\'' then (string (c :: r)).map fun (s, r) => (.string s, r)
    else if c == '[' then
      match depth with
      | 0 => none
      | depth + 1 =>
        (arrayItems (value depth) (r.length + 1) r).map fun (vs, r) => (.array vs, r)
    else if c == '{' then
      match depth with
      | 0 => none
      | depth + 1 => (inlineTable (value depth) r).map fun (t, r) => (.table .inline t, r)
    else scalar (c :: r)

/-! ## Documents -/

/-- A document that is being read: its tables, and the path of the header that was read last. -/
structure Document where
  entries : Table
  header : List Text
  deriving Repr

namespace Document

/-- Reads the header that starts at an opening bracket. -/
def readHeader (d : Document) : Text → Option (Document × Text)
  | '[' :: '[' :: r => do
    let (path, r) ← key r
    let r ← lineEnd (← expect "]]".toList r)
    return (⟨← openElement path d.entries, path⟩, r)
  | '[' :: r => do
    let (path, r) ← key r
    let r ← lineEnd (← expect [']'] r)
    return (⟨← openTable path d.entries, path⟩, r)
  | _ => none

/-- Reads a line that sets a key in the table opened last. -/
def readKeyValue (d : Document) (s : Text) : Option (Document × Text) := do
  let ((path, v), r) ← keyValue (value (nestingLimit - 1)) s
  let entries ← updateAt false (setKey path v) d.header .header d.entries
  return (⟨entries, d.header⟩, ← lineEnd r)

/-- Reads all lines. Every line takes a character, so the length of the text bounds their number. -/
def readLines : (bound : Nat) → Document → Text → Option Document
  | 0, _, _ => none
  | bound + 1, d, s =>
    match skipSpaces s with
    | [] => some d
    | '[' :: r => do
      let (d, r) ← d.readHeader ('[' :: r)
      readLines bound d r
    | c :: r =>
      if c == '#' || c == '\n' || c == '\r' then do
        let r ← lineEnd (c :: r)
        readLines bound d r
      else do
        let (d, r) ← d.readKeyValue (c :: r)
        readLines bound d r

end Document

/-- The table that a document writes, or none if it is malformed. A byte order mark at the front is
skipped. -/
def parse? (s : Text) : Option Table := do
  let s := if s.head? == some '\ufeff' then s.drop 1 else s
  let d ← Document.readLines (s.length + 1) ⟨[], []⟩ s
  -- The document itself is no date, whatever its first key is.
  entriesWithDates? d.entries

end HeaderReflection.Toml
