/-
  HeaderReflection.NormalForm.Comments

  Removal of block comments and of line comments. Both search for the next
  opener and for what ends it; block comments do not nest.
-/
import HeaderReflection.ParseError
import HeaderReflection.Text.Search

namespace HeaderReflection.NormalForm

/-! ## Block comments -/

/-- Drops every block comment of a text that starts at byte `start` of the header. -/
def dropBlockCommentsFrom (start : Nat) (s : Text) : Except ParseError Text :=
  match _hOpen : Text.breakAt '/' '*' s with
  | none => .ok s
  | some (code, r) =>
    match _hClose : Text.breakAt '*' '/' r with
    | none => .error (.unterminatedComment (start + code.size))
    | some (inside, after) => do
      let rest ← dropBlockCommentsFrom (start + code.size + 2 + inside.size + 2) after
      return code ++ rest
termination_by s.length
decreasing_by
  have := Text.length_of_breakAt _hOpen
  have := Text.length_of_breakAt _hClose
  omega

/-- Drops every block comment, or says where the one begins that is never closed. -/
def dropBlockComments (s : Text) : Except ParseError Text :=
  dropBlockCommentsFrom 0 s

/-! ## Line comments -/

/-- Drops every line comment, and keeps the line feed that ends it. -/
def dropLineComments (s : Text) : Text :=
  match _h : Text.breakAt '/' '/' s with
  | none => s
  | some (code, r) => code ++ dropLineComments (r.dropWhile (· != '\n'))
termination_by s.length
decreasing_by
  have := Text.length_of_breakAt _h
  have := (List.dropWhile_suffix (· != '\n') (l := r)).length_le
  omega

end HeaderReflection.NormalForm
