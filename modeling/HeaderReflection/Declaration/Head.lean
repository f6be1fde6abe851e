/-
  HeaderReflection.Declaration.Head

  The head of a marked declaration: its keyword, its name and the brace that
  opens its body. The marker stands before the keyword or right behind it.
-/
import HeaderReflection.Token.Stream

namespace HeaderReflection

/-- The part of a declaration before its body, by token indices. -/
structure DeclHead where
  /-- Where the name starts, which may be qualified. -/
  nameStart : Nat
  name : Text
  /-- The opening brace of the body. -/
  body : Nat
  deriving DecidableEq, Repr

namespace DeclHead

variable (s : TokenStream)

/-! ## The keyword -/

/-- Does token `i` end a declaration head? -/
def endsHead (i : Nat) : Bool :=
  s.isPunct i '{' || s.isPunct i ';' || s.isPunct i '}'

/-- Is token `i` a `struct` or `class` that is not part of an enum's keyword? -/
def isStructKeyword (i : Nat) : Bool :=
  (s.isIdent i "struct".toList || s.isIdent i "class".toList)
    && !(0 < i && s.isIdent (i - 1) "enum".toList)

/-- Does an `enum class` or `enum struct` start at token `i`? -/
def isEnumKeyword (i : Nat) : Bool :=
  s.isIdent i "enum".toList
    && (s.isIdent (i + 1) "class".toList || s.isIdent (i + 1) "struct".toList)

/-- The first index behind the marker, in the rest of its head, that passes the test. -/
def searchHead (marker : Nat) (test : Nat → Bool) : Option Nat :=
  ((s.indices (marker + 1) s.size).takeWhile fun i => !endsHead s i).find? test

/-- Index of the token after the keyword that a marker belongs to. The keyword stands right before
the marker, or else behind it. -/
def afterKeyword (kind : DeclKind) (marker : Nat) : Except ParseError Nat :=
  match kind with
  | .struct =>
    if 0 < marker && isStructKeyword s (marker - 1) then .ok marker
    else match searchHead s marker (isStructKeyword s) with
      | some i => .ok (i + 1)
      | none => .error (.missingKeyword .struct (s.offset marker))
  | .enum =>
    if 2 ≤ marker && isEnumKeyword s (marker - 2) then .ok (marker + 1)
    else match searchHead s marker (isEnumKeyword s) with
      | some i => .ok (i + 2)
      | none => .error (.missingKeyword .enum (s.offset marker))

/-! ## The name -/

/-- The end of the name: goes back from `stop` over `final` and the marker, but not before `start`. -/
def nameEnd (kind : DeclKind) (start : Nat) : Nat → Nat
  | 0 => 0
  | stop + 1 =>
    if start ≤ stop && (s.isIdent stop "final".toList || s.isIdent stop kind.marker) then
      nameEnd kind start stop
    else stop + 1

/-- The start of the qualified name whose last part is at the given index: goes back over parts and
separators in turn, but not before `start`. -/
def nameStartFrom (start : Nat) : Nat → Nat
  | 0 => 0
  | 1 => 1
  | i + 2 =>
    if start ≤ i && s.isSeparator (i + 1) && s.isWord i then nameStartFrom start i else i + 2

/-- The head of the declaration of the given marker, whose keyword ends before `start`. The body
opens at the first token that can end a head; the name stands right before it, or before the colon
of a base or underlying type. -/
def read (kind : DeclKind) (marker start : Nat) : Except ParseError DeclHead :=
  match ((s.indices start s.size).find? (endsHead s)).filter (s.isPunct · '{') with
  | none => .error (.missingBody kind (s.offset marker))
  | some body =>
    -- A clause of base types or of the underlying type is no part of the name.
    let stop := nameEnd s kind start ((s.findPunct start body ':').getD body)
    if stop == start || !s.isWord (stop - 1) then
      .error (.missingName kind (s.offset marker))
    else
      let first := nameStartFrom s start (stop - 1)
      .ok ⟨first, ((List.range' first (stop - first)).map s.text).flatten, body⟩

end DeclHead

end HeaderReflection
