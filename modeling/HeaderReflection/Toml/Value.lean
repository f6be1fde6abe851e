/-
  HeaderReflection.Toml.Value

  The values of a TOML document. Of a table it is also kept how it came to be,
  since that decides whether a later line may add to it. Numbers and dates
  that nothing computes with are kept as they are written.
-/
import HeaderReflection.Text

namespace HeaderReflection.Toml

/-- How a table came to be. -/
inductive TableKind
  /-- Written in braces; nothing is added to it later. -/
  | inline
  /-- Opened by a header of its own. -/
  | header
  /-- Named on the way to a header. -/
  | implied
  /-- Named on the way to a dotted key. -/
  | dotted
  deriving DecidableEq, Repr

/-- Is the table there only because something in it was named? -/
def TableKind.isImplicit : TableKind → Bool
  | inline => false
  | header => false
  | implied => true
  | dotted => true

/-- A value. A table lists its keys in the order of the document, each once. -/
inductive Value
  | string (s : Text)
  | integer (n : Int)
  | float (literal : Text)
  | boolean (b : Bool)
  | dateTime (literal : Text)
  | array (items : List Value)
  /-- The tables opened by headers in double brackets. -/
  | tables (elements : List (List (Text × Value)))
  | table (kind : TableKind) (entries : List (Text × Value))
  deriving Repr

/-- The entries of a table. -/
abbrev Table := List (Text × Value)

namespace Table

/-- The value of a key. -/
def get? (t : Table) (key : Text) : Option Value :=
  (t.find? (·.1 == key)).map (·.2)

/-- Adds an entry behind the others. -/
def add (t : Table) (key : Text) (v : Value) : Table :=
  t ++ [(key, v)]

/-- Changes the value of a key that is there. -/
def replace (t : Table) (key : Text) (v : Value) : Table :=
  t.map fun e => if e.1 == key then (key, v) else e

/-- The table without a key. -/
def erase (t : Table) (key : Text) : Table :=
  t.filter (·.1 != key)

/-- The keys in the order of their bytes. -/
def sortedKeys (t : Table) : List Text :=
  (t.map (·.1)).mergeSort fun a b => (compare a b).isLE

end Table

end HeaderReflection.Toml
