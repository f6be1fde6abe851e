/-
  HeaderReflection.Declaration.Body

  The body of a marked declaration: the marked fields of a struct and the
  cases of an enum. A body is given by the indices of its braces.
-/
import HeaderReflection.Text.Blank
import HeaderReflection.Token.Stream

namespace HeaderReflection

variable (s : TokenStream)

/-! ## Fields -/

/-- The marked fields from index `i` up to the brace at `close`. A marker without a parenthesis
directly behind it is no field; the field goes up to the first closing parenthesis. -/
def collectFieldsFrom (close i : Nat) : Except ParseError (List Text) :=
  match _h : s.findIdent i close fieldMarker with
  | none => .ok []
  | some marker =>
    if s.isPunct (marker + 1) '(' then
      match _hp : s.findPunct (marker + 2) close ')' with
      | none => .error (.unclosedField (s.offset marker))
      | some paren => do
        let rest ← collectFieldsFrom close (paren + 1)
        return (s.textBetween (marker + 2) paren).trim :: rest
    else collectFieldsFrom close (marker + 1)
termination_by close - i
decreasing_by
  · have := TokenStream.findIdent_bounds _h
    have := TokenStream.findPunct_bounds _hp
    omega
  · have := TokenStream.findIdent_bounds _h
    omega

/-- The marked fields of the body between two braces. Those of nested bodies belong to it too. -/
def collectFields (opening close : Nat) : Except ParseError (List Text) :=
  collectFieldsFrom s close (opening + 1)

/-! ## Cases -/

/-- A case that is being read: the bracket depth, the index where it starts, and the index of its
`=` once that has been met. -/
structure CaseProgress where
  depth : Nat
  start : Nat
  stop : Option Nat
  deriving DecidableEq, Repr

/-- The case that ends at index `i`, unless it is empty. Its spaces are dropped. -/
def CaseProgress.finish (p : CaseProgress) (i : Nat) : List Text :=
  let name := (s.textBetween p.start (p.stop.getD i)).filter (· != ' ')
  if name.isEmpty then [] else [name]

/-- What the token at index `i` means for the case: brackets change the depth, and the first `=`
outside of brackets ends the name. -/
def CaseProgress.step (p : CaseProgress) (i : Nat) : CaseProgress :=
  match (s.token? i).map Token.kind with
  | some (.punct c) =>
    if c == '(' || c == '{' || c == '[' then { p with depth := p.depth + 1 }
    else if c == ')' || c == '}' || c == ']' then { p with depth := p.depth - 1 }
    else if c == '=' && p.depth == 0 && p.stop.isNone then { p with stop := some i }
    else p
  | _ => p

/-- The cases at the given indices, the last of which is followed by the brace at `close`. -/
def collectCasesFrom (close : Nat) (p : CaseProgress) : List Nat → List Text
  | [] => p.finish s close
  | i :: rest =>
    let p := p.step s i
    if p.depth == 0 && s.isPunct i ',' then
      p.finish s i ++ collectCasesFrom close ⟨0, i + 1, none⟩ rest
    else collectCasesFrom close p rest

/-- The cases of the body between two braces: the pieces between the commas outside of brackets,
without their initializers. -/
def collectCases (opening close : Nat) : List Text :=
  collectCasesFrom s close ⟨0, opening + 1, none⟩ (List.range' (opening + 1) (close - (opening + 1)))

end HeaderReflection
