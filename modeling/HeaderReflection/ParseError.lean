/-
  HeaderReflection.ParseError

  The markers that a header carries, and the ways in which a header can fail
  to be read. An offset counts bytes of the text the failing pass worked on:
  the raw header for an open comment, the normal form for all else.
-/
import HeaderReflection.Text

namespace HeaderReflection

/-! ## Markers -/

/-- The two kinds of declaration that can be marked for reflection. -/
inductive DeclKind
  /-- A `struct` or a `class`. -/
  | struct
  /-- An `enum class` or an `enum struct`. -/
  | enum
  deriving DecidableEq, Repr

namespace DeclKind

/-- The identifier that marks a declaration of the kind. -/
def marker : DeclKind → Text
  | struct => "REFLECT_STRUCT".toList
  | enum => "REFLECT_ENUM".toList

/-- The keyword that the marker asks for, as it is named to the user. -/
def keyword : DeclKind → String
  | struct => "struct"
  | enum => "enum class"

end DeclKind

/-- The identifier that marks a field, with the field in parentheses after it. -/
def fieldMarker : Text :=
  "REFLECT".toList

/-! ## Errors -/

/-- Why a header cannot be read, with the byte offset of what is at fault. -/
inductive ParseError
  /-- A block comment without an end. -/
  | unterminatedComment (offset : Nat)
  /-- An opening brace without a partner. -/
  | unterminatedScope (offset : Nat)
  /-- A closing brace without a partner. -/
  | unmatchedClose (offset : Nat)
  /-- A marker without the declaration keyword it belongs to. -/
  | missingKeyword (kind : DeclKind) (offset : Nat)
  /-- A marked declaration without a name. -/
  | missingName (kind : DeclKind) (offset : Nat)
  /-- A marked declaration without a body. -/
  | missingBody (kind : DeclKind) (offset : Nat)
  /-- A field marker whose parenthesis is not closed in the body. -/
  | unclosedField (offset : Nat)
  deriving DecidableEq, Repr

namespace ParseError

/-- The byte offset of what is at fault. -/
def offset : ParseError → Nat
  | unterminatedComment n => n
  | unterminatedScope n => n
  | unmatchedClose n => n
  | missingKeyword _ n => n
  | missingName _ n => n
  | missingBody _ n => n
  | unclosedField n => n

/-- Says that `what` is missing after the marker at byte `n`. -/
def missing (what : String) (marker : Text) (n : Nat) : String :=
  "missing " ++ what ++ " after " ++ String.ofList marker ++ " at offset " ++ toString n

/-- The sentence shown to the user. -/
def message : ParseError → String
  | unterminatedComment n =>
    "unterminated block comment starting at offset " ++ toString n ++ " (missing '*/')"
  | unterminatedScope n => "unterminated scope: '\x7b' at offset " ++ toString n ++ " is never closed"
  | unmatchedClose n => "unmatched '\x7d' at offset " ++ toString n
  | missingKeyword k n => missing ("'" ++ k.keyword ++ "'") k.marker n
  | missingName k n => missing "declaration name" k.marker n
  | missingBody k n => missing "'\x7b'" k.marker n
  | unclosedField n => missing "')'" fieldMarker n

end ParseError

end HeaderReflection
