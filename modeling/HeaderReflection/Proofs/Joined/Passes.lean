/-
  HeaderReflection.Proofs.Joined.Passes

  The normal form of two texts with a line end between them. Directives and
  comments of the first end with it, if its last line does not run on, so the
  normal forms stand one after the other, but for a space at the seam.
-/
import HeaderReflection.Proofs.Comments
import HeaderReflection.Proofs.SpacingPass

namespace HeaderReflection

namespace NormalForm

variable {s t r x y : Text} {start : Nat}

/-! ## Directives -/

/-- A line that ends in a semicolon is its own body, and does not run on. -/
theorem lineBody_of_semicolon (h : s.getLast? = some ';') : lineBody s = s ∧ runsOn s = false := by
  obtain ⟨p, rfl⟩ := List.getLast?_eq_some_iff.1 h
  exact ⟨lineBody_concat (by decide) (by decide), by simp [runsOn]⟩

/-- The directives of a text that ends in a semicolon end with it. -/
theorem blankFrom_append_of_semicolon (k : Bool) (h : s.getLast? = some ';') (t : Text) :
    blankFrom k (s ++ '\n' :: t) = blankFrom k s ++ '\n' :: blankDirectives t := by
  -- By induction on the lines. The last one is blanked or not as it would be by itself.
  induction hn : s.length using Nat.strongRecOn generalizing k s with
  | ind n ih =>
      subst hn
      rcases Text.not_mem_or_exists_newline s with hs | ⟨p, v, rfl, hp⟩
      · obtain ⟨hbody, hrun⟩ := lineBody_of_semicolon h
        have hne : s ≠ [] := by
          rintro rfl
          simp at h
        rw [blankFrom, blankFrom, Text.lines_append_newline hs, Text.lines_of_not_mem hs hne,
          blankDirectiveLines, blankDirectiveLines, lineBody_append_newline, hbody, hrun]
        split
        · simp [blankDirectiveLines, blankDirectives, blankLine]
        · simp [blankDirectiveLines, blankDirectives]
      · obtain ⟨p', k', -, hfrom⟩ := blankFrom_append_newline hp k
        have hv : v.getLast? = some ';' := by
          cases v with
          | nil => simp at h
          | cons c v => simpa using h
        have hlt : v.length < (p ++ '\n' :: v).length := by
          simp only [List.length_append, List.length_cons]
          omega
        rw [List.append_assoc, List.cons_append, hfrom, hfrom, ih v.length hlt k' hv rfl,
          List.append_assoc]

/-! ## Comments -/

/-- A line comment ends with its line. -/
theorem dropLineComments_append_newline (s t : Text) :
    dropLineComments (s ++ '\n' :: t) = dropLineComments s ++ '\n' :: dropLineComments t := by
  have hfeed : dropLineComments ('\n' :: t) = '\n' :: dropLineComments t :=
    dropLineComments_append (s := ['\n']) (by decide) t
  fun_induction dropLineComments s with
  | case1 s hnone => rw [dropLineComments_append_cons hnone (by decide), hfeed]
  | case2 s code r hsome ih =>
      have hdrop : (r ++ '\n' :: t).dropWhile (· != '\n') =
          r.dropWhile (· != '\n') ++ '\n' :: t := by
        rw [List.dropWhile_append]
        split
        · next hempty => simp [List.isEmpty_iff.1 hempty]
        · rfl
      rw [dropLineComments_of_some (Text.breakAt_append_of_some hsome _), hdrop, ih,
        List.append_assoc]

end NormalForm

open NormalForm

variable {a b x y : Text}

/-- The normal forms of two texts stand one after the other in the normal form of both, but for a
space at the seam. -/
theorem exists_normalize_append (ha : normalize a = .ok x) (hb : normalize b = .ok y)
    (hlast : a.getLast? = some ';') :
    ∃ o f g, x = o ++ spaceIf f ∧ normalize (a ++ '\n' :: b) = .ok (o ++ (spaceIf g ++ y)) := by
  obtain ⟨code, hcode, rfl⟩ := normalize_eq_ok.1 ha
  obtain ⟨code', hcode', rfl⟩ := normalize_eq_ok.1 hb
  obtain ⟨o, f, hx, happend⟩ := exists_respace_append (dropLineComments code)
  obtain ⟨g, hxy⟩ := happend (dropLineComments code')
  refine ⟨o, f, g, hx, normalize_eq_ok.2 ⟨code ++ '\n' :: code', ?_, ?_⟩⟩
  · have hblank : blankDirectives (a ++ '\n' :: b) = blankDirectives a ++ '\n' :: blankDirectives b :=
      blankFrom_append_of_semicolon false hlast b
    rw [hblank]
    exact drops_append_newline hcode (drops_of_eq_ok hcode') 0
  · rw [dropLineComments_append_newline, hxy]

end HeaderReflection
