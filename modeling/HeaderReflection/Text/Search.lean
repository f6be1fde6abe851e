/-
  HeaderReflection.Text.Search

  Finding a pair of characters in a text, rewriting every such pair, and
  cutting a text into lines.
-/
import HeaderReflection.Text

namespace HeaderReflection.Text

/-! ## The first occurrence of a pair -/

/-- What stands before and after the first `a` that is directly followed by `b`. -/
def breakAt (a b : Char) : Text → Option (Text × Text)
  | [] => none
  | [_] => none
  | x :: y :: r =>
    if x == a && y == b then some ([], r)
    else (breakAt a b (y :: r)).map fun (before, after) => (x :: before, after)

/-- A break loses nothing but the pair itself. -/
theorem eq_of_breakAt {a b : Char} {s before after : Text}
    (h : breakAt a b s = some (before, after)) : s = before ++ a :: b :: after := by
  fun_induction breakAt a b s generalizing before with
  | case1 => simp at h
  | case2 => simp at h
  | case3 x y r hxy =>
    simp only [Bool.and_eq_true, beq_iff_eq] at hxy
    simp only [Option.some.injEq, Prod.mk.injEq] at h
    simp [hxy, ← h.1, ← h.2]
  | case4 x y r _ ih =>
    simp only [Option.map_eq_some_iff, Prod.mk.injEq, Prod.exists] at h
    obtain ⟨p, q, hpq, rfl, rfl⟩ := h
    simp [ih hpq]

/-- What follows a pair is shorter than the text that holds it. -/
theorem length_of_breakAt {a b : Char} {s before after : Text}
    (h : breakAt a b s = some (before, after)) : after.length < s.length := by
  rw [eq_of_breakAt h]
  simp only [List.length_append, List.length_cons]
  omega

/-! ## Rewriting pairs -/

/-- Writes `keep` for every `a` directly followed by `b`, from left to right and without overlap. -/
def contract (a b keep : Char) : Text → Text
  | [] => []
  | [x] => [x]
  | x :: y :: r =>
    if x == a && y == b then keep :: contract a b keep r
    else x :: contract a b keep (y :: r)

/-! ## Lines -/

/-- The lines of a text, each with the line feed that ends it. -/
def lines : Text → List Text
  | [] => []
  | c :: r =>
    if c == '\n' then [c] :: lines r
    else match lines r with
      | [] => [[c]]
      | l :: ls => (c :: l) :: ls

/-- The lines put together again are the text. -/
theorem flatten_lines (s : Text) : (lines s).flatten = s := by
  fun_induction lines s <;> simp_all

end HeaderReflection.Text
