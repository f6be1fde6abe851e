/-
  HeaderReflection.Proofs.Directives

  What the blanking of directives does to a text that is put together from
  parts. A part without a number sign stays as it is. A block comment may hold
  directive lines; its end stays if the line of its end is none of them.
-/
import HeaderReflection.NormalForm.Directives
import HeaderReflection.Proofs.Search

namespace HeaderReflection.NormalForm

variable {c : Char} {p s t u s' t' : Text} {k : Bool}

/-! ## One line -/

/-- A start of a directive starts one whatever follows. -/
theorem startsDirective_append (h : startsDirective s) (t : Text) : startsDirective (s ++ t) := by
  simp only [startsDirective, beq_iff_eq] at h ⊢
  induction s with
  | nil => simp at h
  | cons c s ih =>
      rw [List.cons_append, List.dropWhile_cons]
      rw [List.dropWhile_cons] at h
      split
      · next hc => exact ih (by rwa [if_pos hc] at h)
      · next hc => simpa [hc] using h

/-- A start of no directive goes on as one at a character that is not blank. -/
theorem startsDirective_append_cons (h : startsDirective s = false) (hsharp : c ≠ '#')
    (hspace : c ≠ ' ') (htab : c ≠ '\t') (t : Text) : startsDirective (s ++ c :: t) = false := by
  simp only [startsDirective, beq_eq_false_iff_ne] at h ⊢
  induction s with
  | nil => simp [hspace, htab, hsharp]
  | cons d s ih =>
      rw [List.cons_append, List.dropWhile_cons]
      rw [List.dropWhile_cons] at h
      split
      · next hd => exact ih (by rwa [if_pos hd] at h)
      · next hd => simpa [hd] using h

/-- A start of no directive stays one if no number sign follows. -/
theorem startsDirective_concat (h : startsDirective s = false) (hc : c ≠ '#') :
    startsDirective (s ++ [c]) = false := by
  simp only [startsDirective, beq_eq_false_iff_ne] at h ⊢
  induction s with
  | nil => by_cases hb : c = ' ' ∨ c = '\t' <;> simp_all
  | cons d s ih =>
      rw [List.cons_append, List.dropWhile_cons]
      rw [List.dropWhile_cons] at h
      split
      · next hd => exact ih (by rwa [if_pos hd] at h)
      · next hd => simpa [hd] using h

theorem startsDirective_lineBody (h : startsDirective s = false) :
    startsDirective (lineBody s) = false := by
  have hprefix : lineBody s <+: s := by
    rw [lineBody, ← List.reverse_suffix, List.reverse_reverse]
    exact List.dropWhile_suffix _
  obtain ⟨t, ht⟩ := hprefix
  by_contra hne
  have := startsDirective_append (by simpa using hne) t
  rw [ht, h] at this
  simp at this

/-- A line that ends in neither of the line ends is its own body. -/
theorem lineBody_concat (hfeed : c ≠ '\n') (hreturn : c ≠ '\r') :
    lineBody (s ++ [c]) = s ++ [c] := by
  simp [lineBody, hfeed, hreturn]

theorem lineBody_append_newline (s : Text) : lineBody (s ++ ['\n']) = lineBody s := by
  simp [lineBody]

/-! ## Blanked text -/

/-- A space is one byte. -/
theorem size_spaces (m : Nat) : Text.size (List.replicate m ' ') = m := by
  induction m with
  | zero => rfl
  | succ m ih =>
      rw [List.replicate_succ, Text.size_cons, ih]
      exact Nat.add_comm _ _

/-- A blanked line has a space for every byte. -/
theorem size_blankLine (s : Text) : (blankLine s).size = s.size := by
  induction s with
  | nil => rfl
  | cons d s ih =>
      rw [blankLine, List.flatMap_cons, ← blankLine, Text.size_append, ih]
      split
      · simp
      · simp [size_spaces]

/-- Some characters of the first text are runs of spaces in the second. -/
inductive Blanked : Text → Text → Prop
  | nil : Blanked [] []
  | keep (c : Char) {s s' : Text} (h : Blanked s s') : Blanked (c :: s) (c :: s')
  | blank (c : Char) (n : Nat) {s s' : Text} (h : Blanked s s') :
      Blanked (c :: s) (List.replicate (n + 1) ' ' ++ s')

namespace Blanked

theorem refl (s : Text) : Blanked s s := by
  induction s with
  | nil => exact nil
  | cons c s ih => exact keep c ih

theorem append (hs : Blanked s s') (ht : Blanked t t') : Blanked (s ++ t) (s' ++ t') := by
  induction hs with
  | nil => exact ht
  | keep c _ ih => exact keep c ih
  | blank c n _ ih =>
      rw [List.append_assoc]
      exact blank c n ih

theorem blankLine (s : Text) : Blanked s (blankLine s) := by
  induction s with
  | nil => exact nil
  | cons c s ih =>
      rw [NormalForm.blankLine, List.flatMap_cons, ← NormalForm.blankLine]
      split
      · exact keep c ih
      · have hpos := c.utf8Size_pos
        obtain ⟨n, hn⟩ : ∃ n, c.utf8Size = n + 1 := ⟨c.utf8Size - 1, by omega⟩
        rw [hn]
        exact blank c n ih

/-- What is not a space at the start stood there before. -/
theorem head?_eq (h : Blanked s (c :: s')) (hc : c ≠ ' ') : s.head? = some c := by
  cases h with
  | keep => rfl
  | blank => exact absurd rfl hc

/-- A run of spaces before a text begins and ends no pair of characters that are not spaces. -/
theorem infix_of_infix_spaces {a b : Char} {n : Nat} (ha : a ≠ ' ')
    (h : [a, b] <:+: List.replicate n ' ' ++ s) : [a, b] <:+: s := by
  induction n with
  | zero => simpa using h
  | succ n ih =>
      rw [List.replicate_succ, List.cons_append, List.infix_cons_iff, List.cons_prefix_cons] at h
      rcases h with ⟨rfl, -⟩ | h
      · exact absurd rfl ha
      · exact ih h

/-- Blanking makes no pair of characters that are not spaces. -/
theorem infix_of_infix {a b : Char} (h : Blanked s s') (ha : a ≠ ' ') (hb : b ≠ ' ')
    (hin : [a, b] <:+: s') : [a, b] <:+: s := by
  induction h with
  | nil => exact hin
  | @keep c s s' h ih =>
      rw [List.infix_cons_iff, List.cons_prefix_cons] at hin ⊢
      rcases hin with ⟨rfl, r, rfl⟩ | hin
      · obtain ⟨r', hr'⟩ := List.head?_eq_some_iff.1 (h.head?_eq hb)
        exact Or.inl ⟨rfl, r', hr'.symm⟩
      · exact Or.inr (ih hin)
  | @blank c n s s' h ih =>
      exact (ih (infix_of_infix_spaces ha hin)).trans (List.infix_cons (List.infix_refl s))

end Blanked

/-! ## All lines -/

/-- The text with its directives blanked; `k` says that its first line goes on a directive. -/
def blankFrom (k : Bool) (text : Text) : Text :=
  (blankDirectiveLines k text.lines).flatten

/-- A line ends, and what it is decides how the next one begins. -/
theorem blankFrom_append_newline (hp : '\n' ∉ p) (k : Bool) :
    ∃ (p' : Text) (k' : Bool), Blanked (p ++ ['\n']) p' ∧
      ∀ t, blankFrom k (p ++ '\n' :: t) = p' ++ blankFrom k' t := by
  by_cases h : k || startsDirective (lineBody (p ++ ['\n']))
  · refine ⟨_, runsOn (lineBody (p ++ ['\n'])), Blanked.blankLine _, fun t => ?_⟩
    rw [blankFrom, Text.lines_append_newline hp, blankDirectiveLines, if_pos h]
    rfl
  · refine ⟨_, false, Blanked.refl _, fun t => ?_⟩
    rw [blankFrom, Text.lines_append_newline hp, blankDirectiveLines, if_neg h]
    rfl

/-- A line that is no directive stays as it is. -/
theorem blankFrom_false_append_newline (hp : '\n' ∉ p) (hstart : startsDirective p = false)
    (t : Text) : blankFrom false (p ++ '\n' :: t) = p ++ '\n' :: blankFrom false t := by
  have hline : startsDirective (p ++ ['\n']) = false := startsDirective_concat hstart (by decide)
  rw [blankFrom, Text.lines_append_newline hp, blankDirectiveLines, startsDirective_lineBody hline]
  simp [blankFrom]

/-- A last line that is no directive stays as it is. -/
theorem blankFrom_false_of_not_mem (hp : '\n' ∉ p) (hstart : startsDirective p = false) :
    blankFrom false p = p := by
  by_cases hnil : p = []
  · subst hnil
    rfl
  · rw [blankFrom, Text.lines_of_not_mem hp hnil, blankDirectiveLines,
      startsDirective_lineBody hstart]
    simp [blankDirectiveLines]

/-- A last line that goes on a directive or is one itself is blanked. -/
theorem blankFrom_of_not_mem (hp : '\n' ∉ p) (h : k || startsDirective (lineBody p)) :
    blankFrom k p = blankLine p := by
  by_cases hnil : p = []
  · subst hnil
    rfl
  · rw [blankFrom, Text.lines_of_not_mem hp hnil, blankDirectiveLines, if_pos h]
    simp [blankDirectiveLines]

/-! ## Parts of a text -/

/-- The first text becomes the second, whatever stands before it on its first line, if that starts no
directive. -/
def Becomes (t t' : Text) : Prop :=
  ∀ p, '\n' ∉ p → startsDirective p = false → blankFrom false (p ++ t) = p ++ t'

namespace Becomes

theorem blankDirectives_eq (h : Becomes t t') : blankDirectives t = t' :=
  h [] (by simp) rfl

theorem nil : Becomes [] [] := by
  intro p hp hstart
  rw [List.append_nil, blankFrom_false_of_not_mem hp hstart]

/-- Behind a line feed the text is as good as by itself. -/
theorem newline (h : blankDirectives t = t') : Becomes ('\n' :: t) ('\n' :: t') := by
  intro p hp hstart
  rw [blankFrom_false_append_newline hp hstart]
  exact congrArg (p ++ '\n' :: ·) h

theorem cons (h : Becomes t t') (hc : c ≠ '#') : Becomes (c :: t) (c :: t') := by
  by_cases hfeed : c = '\n'
  · subst hfeed
    exact newline h.blankDirectives_eq
  · intro p hp hstart
    have := h (p ++ [c]) (by simp [hp, Ne.symm hfeed]) (startsDirective_concat hstart hc)
    simpa using this

/-- A part without a number sign stays as it is. -/
theorem append (h : Becomes t t') (hs : '#' ∉ s) : Becomes (s ++ t) (s ++ t') := by
  induction s with
  | nil => exact h
  | cons c s ih =>
      rw [List.mem_cons, not_or] at hs
      exact (ih hs.2).cons (Ne.symm hs.1)

/-- A part of one line that starts with no number sign stays as it is. -/
theorem append_of_not_mem (h : Becomes t t') (hfeed : '\n' ∉ c :: s) (hsharp : c ≠ '#')
    (hspace : c ≠ ' ') (htab : c ≠ '\t') : Becomes (c :: s ++ t) (c :: s ++ t') := by
  intro p hp hstart
  have := h (p ++ c :: s) (by simpa [hp] using hfeed)
    (startsDirective_append_cons hstart hsharp hspace htab s)
  simpa using this

end Becomes

/-- The rest of a block comment, with its end. Its line ends are those of a text by itself, so its
end stays or is blanked whatever follows. -/
theorem blankFrom_comment_cases (k : Bool) (u : Text) :
    (∃ u', Blanked u u' ∧ ∀ t t', Becomes t t' →
      blankFrom k (u ++ '*' :: '/' :: t) = u' ++ '*' :: '/' :: t') ∨
    ∃ u', Blanked u u' ∧ blankFrom k (u ++ ['*', '/']) = u' ++ [' ', ' '] := by
  -- By induction on the lines. On the last one stands the end of the comment: it is blanked with its
  -- line, or the line goes on behind it as that of a text by itself.
  induction hn : u.length using Nat.strongRecOn generalizing k u with
  | ind n ih =>
      subst hn
      rcases Text.not_mem_or_exists_newline u with hu | ⟨p, v, rfl, hp⟩
      · by_cases h : k || startsDirective (lineBody (u ++ ['*', '/']))
        · refine Or.inr ⟨blankLine u, Blanked.blankLine u, ?_⟩
          rw [blankFrom_of_not_mem (by simp [hu]) h, blankLine, List.flatMap_append]
          rfl
        · have hbody : lineBody (u ++ ['*', '/']) = u ++ ['*', '/'] := by
            simpa using lineBody_concat (c := '/') (s := u ++ ['*']) (by decide) (by decide)
          rw [hbody, Bool.or_eq_true, not_or] at h
          simp only [Bool.not_eq_true] at h
          obtain ⟨rfl, hstart⟩ := h
          refine Or.inl ⟨u, Blanked.refl u, fun t t' ht => ?_⟩
          simpa using ht (u ++ ['*', '/']) (by simp [hu]) hstart
      · obtain ⟨p', k', hblanked, hfrom⟩ := blankFrom_append_newline hp k
        have happend : p ++ '\n' :: v = (p ++ ['\n']) ++ v := by simp
        have hlt : v.length < (p ++ '\n' :: v).length := by
          simp only [List.length_append, List.length_cons]
          omega
        rcases ih v.length hlt k' v rfl with ⟨v', hv, hstays⟩ | ⟨v', hv, hblank⟩
        · refine Or.inl ⟨p' ++ v', happend ▸ hblanked.append hv, fun t t' ht => ?_⟩
          rw [List.append_assoc, List.cons_append, hfrom, hstays t t' ht, List.append_assoc]
        · refine Or.inr ⟨p' ++ v', happend ▸ hblanked.append hv, ?_⟩
          rw [List.append_assoc, List.cons_append, hfrom, hblank, List.append_assoc]

/-- A block comment. Either its end stays whatever stands around it, or it is blanked. -/
theorem comment_cases (s : Text) :
    (∃ s', Blanked s s' ∧ ∀ t t', Becomes t t' →
      Becomes ('/' :: '*' :: (s ++ '*' :: '/' :: t)) ('/' :: '*' :: (s' ++ '*' :: '/' :: t'))) ∨
    ∃ s', Blanked s s' ∧
      blankDirectives ('/' :: '*' :: (s ++ ['*', '/'])) = '/' :: '*' :: (s' ++ [' ', ' ']) := by
  rcases Text.not_mem_or_exists_newline s with hs | ⟨p, v, rfl, hp⟩
  · refine Or.inl ⟨s, Blanked.refl s, fun t t' ht => ?_⟩
    have := ht.append_of_not_mem (c := '/') (s := '*' :: (s ++ ['*', '/'])) (by simp [hs])
      (by decide) (by decide) (by decide)
    simpa using this
  -- The first line starts with the comment, so it is no directive and goes on none.
  · have hfirst : ∀ {x x' : Text}, blankDirectives x = x' →
        Becomes ('/' :: '*' :: (p ++ '\n' :: x)) ('/' :: '*' :: (p ++ '\n' :: x')) := by
      intro x x' hx
      exact (Becomes.newline hx).append_of_not_mem (c := '/') (s := '*' :: p) (by simp [hp])
        (by decide) (by decide) (by decide)
    rcases blankFrom_comment_cases false v with ⟨v', hv, hstays⟩ | ⟨v', hv, hblank⟩
    · refine Or.inl ⟨p ++ '\n' :: v', (Blanked.refl p).append (Blanked.keep _ hv),
        fun t t' ht => ?_⟩
      simpa using hfirst (hstays t t' ht)
    · refine Or.inr ⟨p ++ '\n' :: v', (Blanked.refl p).append (Blanked.keep _ hv), ?_⟩
      simpa using (hfirst hblank).blankDirectives_eq

end HeaderReflection.NormalForm
