/-
  HeaderReflection.Proofs.Search

  Finding a pair of characters in a text that is put together from parts, and
  the lines of such a text.
-/
import HeaderReflection.Text.Search
import Mathlib.Data.List.Basic

namespace HeaderReflection.Text

variable {a b c : Char} {s t p before after : Text}

/-! ## The first pair -/

/-- A search looks at the first character and the one behind it, and then goes on. -/
theorem breakAt_cons (c : Char) (s : Text) :
    breakAt a b (c :: s) =
      if c = a ∧ s.head? = some b then some ([], s.tail)
      else (breakAt a b s).map fun (before, after) => (c :: before, after) := by
  cases s with
  | nil => simp [breakAt]
  | cons d s => simp [breakAt]

/-- A text without the pair is not broken. -/
theorem breakAt_eq_none_iff : breakAt a b s = none ↔ ¬ [a, b] <:+: s := by
  fun_induction breakAt a b s with
  | case1 => simp
  | case2 x => simp [List.infix_cons_iff]
  | case3 x y r hxy =>
      simp only [Bool.and_eq_true, beq_iff_eq] at hxy
      obtain ⟨rfl, rfl⟩ := hxy
      simp only [reduceCtorEq, false_iff, not_not]
      exact List.IsPrefix.isInfix ⟨r, rfl⟩
  | case4 x y r hxy ih =>
      simp only [Bool.and_eq_true, beq_iff_eq] at hxy
      have hinfix : [a, b] <:+: x :: y :: r ↔ [a, b] <+: x :: y :: r ∨ [a, b] <:+: y :: r :=
        List.infix_cons_iff
      rw [Option.map_eq_none_iff, ih, hinfix, not_or, List.cons_prefix_cons, List.cons_prefix_cons]
      simp only [List.nil_prefix, and_true, eq_comm (a := a), eq_comm (a := b), hxy,
        not_false_eq_true, true_and]

/-- A text without its first character is not broken. -/
theorem breakAt_of_not_mem (h : a ∉ s) : breakAt a b s = none :=
  breakAt_eq_none_iff.2 fun hin => h (hin.subset (by simp))

/-- The parts of a broken text hold nothing else. -/
theorem not_mem_of_breakAt (h : breakAt a b s = some (before, after)) (hc : c ∉ s) :
    c ∉ before ∧ c ∉ after := by
  rw [eq_of_breakAt h] at hc
  simp only [List.mem_append, List.mem_cons, not_or] at hc
  exact ⟨hc.1, hc.2.2.2⟩

/-- Before the first pair there is none. -/
theorem breakAt_before (h : breakAt a b s = some (before, after)) : breakAt a b before = none := by
  fun_induction breakAt a b s generalizing before after with
  | case1 => simp at h
  | case2 => simp at h
  | case3 x y r hxy =>
      obtain ⟨rfl, -⟩ := Prod.mk.inj (Option.some.inj h)
      rfl
  | case4 x y r hxy ih =>
      obtain ⟨⟨q, rest⟩, hq, h⟩ := Option.map_eq_some_iff.1 h
      obtain ⟨rfl, -⟩ := Prod.mk.inj h
      -- The part begins with two characters of the text, or has only one.
      cases q with
      | nil => rfl
      | cons z q =>
          obtain ⟨rfl, -⟩ := List.cons.inj (eq_of_breakAt hq)
          rw [breakAt, if_neg hxy, ih hq]
          rfl

/-- What stands before the first pair does not matter for what follows it. -/
theorem breakAt_append_of_some (h : breakAt a b s = some (before, after)) (t : Text) :
    breakAt a b (s ++ t) = some (before, after ++ t) := by
  fun_induction breakAt a b s generalizing before with
  | case1 => simp at h
  | case2 => simp at h
  | case3 x y r hxy =>
      simp only [Option.some.injEq, Prod.mk.injEq] at h
      obtain ⟨rfl, rfl⟩ := h
      simp [breakAt, hxy]
  | case4 x y r hxy ih =>
      simp only [Option.map_eq_some_iff, Prod.mk.injEq, Prod.exists] at h
      obtain ⟨q, after', hq, rfl, rfl⟩ := h
      simp only [List.cons_append] at ih ⊢
      rw [breakAt, if_neg hxy, ih hq]
      rfl

/-- A part without the pair goes before what is found behind it, if the pair cannot begin in the
one and end in the other. -/
theorem breakAt_append_of_none (h : breakAt a b s = none) (hc : s.getLast? ≠ some a ∨ c ≠ b) :
    breakAt a b (s ++ c :: t) = (breakAt a b (c :: t)).map fun (x, y) => (s ++ x, y) := by
  fun_induction breakAt a b s with
  | case1 => simp
  | case2 x =>
      have hxc : ¬ (x == a && c == b) = true := by
        rcases hc with hx | hc
        · simp at hx
          simp [hx]
        · simp [hc]
      rw [List.singleton_append, breakAt, if_neg hxc]
      rfl
  | case3 x y r hxy => simp at h
  | case4 x y r hxy ih =>
      rw [List.getLast?_cons_cons] at hc
      rw [List.cons_append, List.cons_append, breakAt, if_neg hxy, ← List.cons_append,
        ih (by simpa using h) hc, Option.map_map]
      rfl

/-- A part without the first character of the pair goes before what is found behind it. -/
theorem breakAt_append_of_not_mem (h : a ∉ s) (t : Text) :
    breakAt a b (s ++ t) = (breakAt a b t).map fun (x, y) => (s ++ x, y) := by
  cases t with
  | nil =>
      rw [List.append_nil, breakAt_of_not_mem h]
      rfl
  | cons c t =>
      exact breakAt_append_of_none (breakAt_of_not_mem h)
        (Or.inl fun hlast => h (List.mem_of_getLast? hlast))

/-- The first pair is the one behind a part without it. -/
theorem breakAt_append_pair (h : ¬ [a, b] <:+: s) (hab : a ≠ b) (t : Text) :
    breakAt a b (s ++ a :: b :: t) = some (s, t) := by
  rw [breakAt_append_of_none (breakAt_eq_none_iff.2 h) (Or.inr hab), breakAt]
  simp

/-! ## Lines -/

/-- A line feed ends the first line. -/
theorem lines_append_newline (h : '\n' ∉ p) (t : Text) :
    lines (p ++ '\n' :: t) = (p ++ ['\n']) :: lines t := by
  induction p with
  | nil => simp [lines]
  | cons c p ih =>
      rw [List.mem_cons, not_or] at h
      rw [List.cons_append, lines, ih h.2]
      simp [Ne.symm h.1]

/-- A text without a line feed is one line. -/
theorem lines_of_not_mem (h : '\n' ∉ p) (hp : p ≠ []) : lines p = [p] := by
  induction p with
  | nil => exact absurd rfl hp
  | cons c p ih =>
      rw [List.mem_cons, not_or] at h
      rw [lines, if_neg (by simpa using Ne.symm h.1)]
      by_cases hp : p = []
      · subst hp
        rfl
      · rw [ih h.2 hp]

/-- A text is one line without a line feed, or its first line feed ends its first line. -/
theorem not_mem_or_exists_newline (s : Text) :
    '\n' ∉ s ∨ ∃ p t, s = p ++ '\n' :: t ∧ '\n' ∉ p := by
  by_cases h : '\n' ∈ s
  · obtain ⟨p, t, rfl, hp⟩ := List.eq_append_cons_of_mem h
    exact Or.inr ⟨p, t, rfl, hp⟩
  · exact Or.inl h

end HeaderReflection.Text
