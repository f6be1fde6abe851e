/-
  HeaderReflection.Toml.DateTable

  Dates in the form of tables. A table that begins with a reserved key stands
  for the date or time that the string behind that key writes.
-/
import HeaderReflection.Toml.Scalar

namespace HeaderReflection.Toml

/-! ## One table -/

/-- The key that a table begins with if it stands for a date. -/
def dateKey : Text :=
  "$__toml_private_datetime".toList

/-- The date that a whole string writes. -/
def dateOf? : Value → Option Value
  | .string s =>
    match dateTime s with
    | some (v, []) => some v
    | _ => none
  | _ => none

/-- What a table stands for: the date behind the reserved key, or the table with its changed entries.
What follows the reserved key is not looked at. -/
def dateOrTable? (kind : TableKind) (entries : Table) (changed : Option Table) : Option Value :=
  match entries with
  | [] => changed.map (.table kind)
  | (k, v) :: _ => if k == dateKey then dateOf? v else changed.map (.table kind)

/-! ## Values -/

mutual

/-- The value with a date in place of each table that stands for one; none if there is no date where
there should be. -/
def Value.withDates? : Value → Option Value
  | .array items => (itemsWithDates? items).map .array
  | .tables elements => (elementsWithDates? elements).map .array
  | .table kind entries => dateOrTable? kind entries (entriesWithDates? entries)
  | v => some v

/-- The items of an array, each with its dates. -/
def itemsWithDates? : List Value → Option (List Value)
  | [] => some []
  | v :: rest => do return (← v.withDates?) :: (← itemsWithDates? rest)

/-- The tables of an array of tables, each as a value with its dates. -/
def elementsWithDates? : List (List (Text × Value)) → Option (List Value)
  | [] => some []
  | entries :: rest => do
    let first ← dateOrTable? .header entries (entriesWithDates? entries)
    return first :: (← elementsWithDates? rest)

/-- The entries of a table, each with its dates. -/
def entriesWithDates? : List (Text × Value) → Option (List (Text × Value))
  | [] => some []
  | (k, v) :: rest => do return (k, ← v.withDates?) :: (← entriesWithDates? rest)

end

end HeaderReflection.Toml
