/-
  HeaderReflection.Token.Braces

  Pairing of braces. A closing brace pairs with the innermost opening brace
  that is still open; a text in which a brace has no partner is refused.
-/
import HeaderReflection.ParseError
import HeaderReflection.Token

namespace HeaderReflection

/-- Pairs the braces of the tokens from index `i` on. The opening braces before them that are still
open are given by index and byte offset, the innermost first; a pair is an opening and a closing
index. -/
def pairBracesFrom (i : Nat) (opened : List (Nat × Nat)) :
    List Token → Except ParseError (List (Nat × Nat))
  | [] =>
    match opened with
    | [] => .ok []
    | (_, offset) :: _ => .error (.unterminatedScope offset)
  | t :: ts =>
    if t.isPunct '{' then pairBracesFrom (i + 1) ((i, t.start) :: opened) ts
    else if t.isPunct '}' then
      match opened with
      | [] => .error (.unmatchedClose t.start)
      | (o, _) :: outer => do
        let pairs ← pairBracesFrom (i + 1) outer ts
        return (o, i) :: pairs
    else pairBracesFrom (i + 1) opened ts

/-- The pairs of braces of a text's tokens. -/
def pairBraces (tokens : List Token) : Except ParseError (List (Nat × Nat)) :=
  pairBracesFrom 0 [] tokens

end HeaderReflection
