/-
  HeaderReflection.Proofs.Comments

  What becomes of the comments of a header. The text is put together from code
  and comments, and its normal form is that of the code alone if each comment
  is contained in itself: its end is not blanked with a directive that it holds,
  and a block comment does not begin inside of it and end outside.
-/
import HeaderReflection.Extraction
import HeaderReflection.Proofs.Directives
import HeaderReflection.Proofs.Stream

namespace HeaderReflection

namespace NormalForm

variable {c : Char} {s t t' r u code inside after : Text} {start : Nat}

/-! ## Block comments -/

theorem dropBlockCommentsFrom_of_none (h : Text.breakAt '/' '*' s = none) :
    dropBlockCommentsFrom start s = .ok s := by
  rw [dropBlockCommentsFrom]
  split
  · rfl
  · next hopen => simp [h] at hopen

theorem dropBlockCommentsFrom_of_open (hopen : Text.breakAt '/' '*' s = some (code, r))
    (hclose : Text.breakAt '*' '/' r = none) :
    dropBlockCommentsFrom start s = .error (.unterminatedComment (start + code.size)) := by
  rw [dropBlockCommentsFrom]
  split
  · next hnone => simp [hopen] at hnone
  · next code' r' hsome =>
    simp only [hopen, Option.some.injEq, Prod.mk.injEq] at hsome
    obtain ⟨rfl, rfl⟩ := hsome
    split
    · rfl
    · next hsome => simp [hclose] at hsome

theorem dropBlockCommentsFrom_of_closed (hopen : Text.breakAt '/' '*' s = some (code, r))
    (hclose : Text.breakAt '*' '/' r = some (inside, after)) :
    dropBlockCommentsFrom start s = do
      let rest ← dropBlockCommentsFrom (start + code.size + 2 + inside.size + 2) after
      return code ++ rest := by
  rw [dropBlockCommentsFrom]
  split
  · next hnone => simp [hopen] at hnone
  · next code' r' hsome =>
    simp only [hopen, Option.some.injEq, Prod.mk.injEq] at hsome
    obtain ⟨rfl, rfl⟩ := hsome
    split
    · next hnone => simp [hclose] at hnone
    · next inside' after' hsome =>
      simp only [hclose, Option.some.injEq, Prod.mk.injEq] at hsome
      obtain ⟨rfl, rfl⟩ := hsome
      rfl

/-- A part that neither holds nor begins a block comment goes before what is kept behind it. -/
theorem dropBlockCommentsFrom_append (h : Text.breakAt '/' '*' s = none)
    (hc : s.getLast? ≠ some '/' ∨ c ≠ '*') :
    dropBlockCommentsFrom start (s ++ c :: t) = do
      let rest ← dropBlockCommentsFrom (start + s.size) (c :: t)
      return s ++ rest := by
  have hbreak := Text.breakAt_append_of_none (t := t) h hc
  cases hopen : Text.breakAt '/' '*' (c :: t) with
  | none =>
      rw [dropBlockCommentsFrom_of_none (by rw [hbreak, hopen]; rfl),
        dropBlockCommentsFrom_of_none hopen]
      rfl
  | some parts =>
      obtain ⟨code, r⟩ := parts
      rw [hopen, Option.map_some] at hbreak
      cases hclose : Text.breakAt '*' '/' r with
      | none =>
          rw [dropBlockCommentsFrom_of_open hbreak hclose,
            dropBlockCommentsFrom_of_open hopen hclose, Text.size_append, Nat.add_assoc]
          rfl
      | some ends =>
          rw [dropBlockCommentsFrom_of_closed hbreak hclose,
            dropBlockCommentsFrom_of_closed hopen hclose, Text.size_append]
          simp only [Nat.add_assoc, bind_assoc, pure_bind, List.append_assoc]

/-- The text is kept without its block comments, which are all closed. -/
def Drops (s r : Text) : Prop :=
  ∀ start, dropBlockCommentsFrom start s = .ok r

/-- A part without a slash stays as it is. -/
theorem Drops.append (h : Drops t t') (hs : '/' ∉ s) : Drops (s ++ t) (s ++ t') := by
  cases t with
  | nil =>
      obtain rfl := Except.ok.inj ((h 0).symm.trans (dropBlockCommentsFrom_of_none rfl))
      intro start
      rw [List.append_nil, dropBlockCommentsFrom_of_none (Text.breakAt_of_not_mem hs)]
  | cons c t =>
      intro start
      rw [dropBlockCommentsFrom_append (Text.breakAt_of_not_mem hs)
        (Or.inl fun hlast => hs (List.mem_of_getLast? hlast)), h]
      rfl

/-- What is kept does not depend on where the text starts. -/
theorem drops_of_eq_ok (h : dropBlockCommentsFrom start s = .ok r) : Drops s r := by
  fun_induction dropBlockCommentsFrom start s generalizing r with
  | case1 start s hopen =>
      obtain rfl := Except.ok.inj h
      exact fun _ => dropBlockCommentsFrom_of_none hopen
  | case2 => simp at h
  | case3 start s code after hopen inside rest hclose ih =>
      obtain ⟨r', hr', h⟩ := bind_eq_ok.1 h
      obtain rfl := Except.ok.inj h
      intro start
      rw [dropBlockCommentsFrom_of_closed hopen hclose, ih hr']
      rfl

/-- A block comment is left out. -/
theorem Drops.comment (h : Drops t t') (hs : ¬ ['*', '/'] <:+: s) :
    Drops ('/' :: '*' :: (s ++ '*' :: '/' :: t)) t' := by
  intro start
  have hopen : Text.breakAt '/' '*' ('/' :: '*' :: (s ++ '*' :: '/' :: t)) =
      some ([], s ++ '*' :: '/' :: t) := by
    simp [Text.breakAt]
  rw [dropBlockCommentsFrom_of_closed hopen (Text.breakAt_append_pair hs (by decide) t), h]
  rfl

/-- A part whose block comments are closed in it ends where it did. -/
theorem drops_append_cons (h : dropBlockCommentsFrom start s = .ok r) (hslash : c ≠ '/')
    (hstar : c ≠ '*') (ht : Drops t t') : Drops (s ++ c :: t) (r ++ c :: t') := by
  fun_induction dropBlockCommentsFrom start s generalizing r with
  | case1 start s hopen =>
      obtain rfl := Except.ok.inj h
      intro start
      have hcons : Drops (c :: t) (c :: t') := ht.append (s := [c]) (by simpa using hslash.symm)
      rw [dropBlockCommentsFrom_append hopen (Or.inr hstar), hcons]
      rfl
  | case2 => simp at h
  | case3 start s code after hopen inside rest hclose ih =>
      obtain ⟨r', hr', h⟩ := bind_eq_ok.1 h
      obtain rfl := Except.ok.inj h
      intro start
      rw [dropBlockCommentsFrom_of_closed (Text.breakAt_append_of_some hopen _)
        (Text.breakAt_append_of_some hclose _), ih hr', List.append_assoc]
      rfl

/-- A line whose block comments are closed in it ends where it did. -/
theorem drops_append_newline (h : dropBlockCommentsFrom start s = .ok r) (ht : Drops t t') :
    Drops (s ++ '\n' :: t) (r ++ '\n' :: t') :=
  drops_append_cons h (by decide) (by decide) ht

/-- No block comment that is open at the end of a text is closed behind it without a slash. -/
theorem exists_of_append (ht : '/' ∉ t) (h : dropBlockCommentsFrom start (s ++ t) = .ok r) :
    ∃ r', dropBlockCommentsFrom start s = .ok r' := by
  fun_induction dropBlockCommentsFrom start s generalizing r with
  | case1 start s hopen => exact ⟨s, rfl⟩
  | case2 start s code after hopen hclose =>
      -- Without a slash nothing behind the text closes the comment.
      have hclose' : Text.breakAt '*' '/' (after ++ t) = none := by
        cases t with
        | nil => rw [List.append_nil, hclose]
        | cons c t =>
            have hnone : Text.breakAt '*' '/' (c :: t) = none :=
              Text.breakAt_eq_none_iff.2 fun hin => ht (hin.subset (by simp))
            have hc : c ≠ '/' := fun heq => ht (heq ▸ List.mem_cons_self)
            rw [Text.breakAt_append_of_none hclose (Or.inr hc), hnone]
            rfl
      rw [dropBlockCommentsFrom_of_open (Text.breakAt_append_of_some hopen _) hclose'] at h
      simp at h
  | case3 start s code after hopen inside rest hclose ih =>
      rw [dropBlockCommentsFrom_of_closed (Text.breakAt_append_of_some hopen _)
        (Text.breakAt_append_of_some hclose _)] at h
      obtain ⟨r', hr', -⟩ := bind_eq_ok.1 h
      obtain ⟨u, hu⟩ := ih hr'
      rw [hu]
      exact ⟨_, rfl⟩

/-- If the block comments of a text are closed in it without its last line feed, they are with it. -/
theorem exists_of_append_newline (h : dropBlockCommentsFrom start (s ++ ['\n']) = .ok r) :
    ∃ r', dropBlockCommentsFrom start s = .ok r' :=
  exists_of_append (by decide) h

/-- No block comment is opened by a part without a slash. -/
theorem exists_of_append_left (hs : '/' ∉ s) (h : dropBlockCommentsFrom start (s ++ t) = .ok r) :
    ∃ start' r', dropBlockCommentsFrom start' t = .ok r' := by
  cases t with
  | nil => exact ⟨0, [], dropBlockCommentsFrom_of_none rfl⟩
  | cons c t =>
      rw [dropBlockCommentsFrom_append (Text.breakAt_of_not_mem hs)
        (Or.inl fun hlast => hs (List.mem_of_getLast? hlast)), bind_eq_ok] at h
      obtain ⟨r', hr', -⟩ := h
      exact ⟨_, r', hr'⟩

/-- What is kept stood in the text. -/
theorem mem_of_drops (h : dropBlockCommentsFrom start s = .ok r) (hc : c ∈ r) : c ∈ s := by
  fun_induction dropBlockCommentsFrom start s generalizing r with
  | case1 start s hopen =>
      obtain rfl := Except.ok.inj h
      exact hc
  | case2 => simp at h
  | case3 start s code after hopen inside rest hclose ih =>
      obtain ⟨r', hr', h⟩ := bind_eq_ok.1 h
      obtain rfl := Except.ok.inj h
      rw [Text.eq_of_breakAt hopen, Text.eq_of_breakAt hclose]
      rcases List.mem_append.1 hc with hc | hc
      · simp [hc]
      · simp [ih hr' hc]

/-! ## Line comments -/

theorem dropLineComments_of_none (h : Text.breakAt '/' '/' s = none) : dropLineComments s = s := by
  rw [dropLineComments]
  split
  · rfl
  · next hsome => simp [h] at hsome

theorem dropLineComments_of_some (h : Text.breakAt '/' '/' s = some (code, r)) :
    dropLineComments s = code ++ dropLineComments (r.dropWhile (· != '\n')) := by
  rw [dropLineComments]
  split
  · next hnone => simp [h] at hnone
  · next hsome =>
    simp only [h, Option.some.injEq, Prod.mk.injEq] at hsome
    obtain ⟨rfl, rfl⟩ := hsome
    rfl

/-- A part before the first pair of slashes stays as it is. -/
theorem dropLineComments_append_of_break
    (h : Text.breakAt '/' '/' (s ++ t) = (Text.breakAt '/' '/' t).map fun (x, y) => (s ++ x, y)) :
    dropLineComments (s ++ t) = s ++ dropLineComments t := by
  cases ht : Text.breakAt '/' '/' t with
  | none =>
      rw [dropLineComments_of_none ht, dropLineComments_of_none (by rw [h, ht]; rfl)]
  | some parts =>
      rw [ht, Option.map_some] at h
      rw [dropLineComments_of_some ht, dropLineComments_of_some h, List.append_assoc]

/-- A part without a slash stays as it is. -/
theorem dropLineComments_append (hs : '/' ∉ s) (t : Text) :
    dropLineComments (s ++ t) = s ++ dropLineComments t :=
  dropLineComments_append_of_break (Text.breakAt_append_of_not_mem hs t)

/-- A part without a pair of slashes stays as it is, if no slash follows. -/
theorem dropLineComments_append_cons (hs : Text.breakAt '/' '/' s = none) (hc : c ≠ '/') (t : Text) :
    dropLineComments (s ++ c :: t) = s ++ dropLineComments (c :: t) :=
  dropLineComments_append_of_break (Text.breakAt_append_of_none hs (Or.inr hc))

/-- A line comment takes the rest of its line. -/
theorem dropLineComments_line (h : Text.breakAt '/' '/' s = some (code, r)) (hr : '\n' ∉ r) (t : Text) :
    dropLineComments (s ++ '\n' :: t) = code ++ '\n' :: dropLineComments t := by
  have hdrop : (r ++ '\n' :: t).dropWhile (· != '\n') = '\n' :: t := by
    rw [List.dropWhile_append_of_pos]
    · simp
    · intro c hc
      have hne : c ≠ '\n' := fun h => hr (h ▸ hc)
      simpa using hne
  rw [dropLineComments_of_some (Text.breakAt_append_of_some h _), hdrop]
  exact congrArg (code ++ ·) (dropLineComments_append (s := ['\n']) (by decide) t)

/-- Of a line comment the line feed stays. -/
theorem dropLineComments_comment (hs : '\n' ∉ s) (t : Text) :
    dropLineComments ('/' :: '/' :: (s ++ '\n' :: t)) = '\n' :: dropLineComments t := by
  have hopen : Text.breakAt '/' '/' ('/' :: '/' :: s) = some ([], s) := by simp [Text.breakAt]
  exact dropLineComments_line hopen hs t

/-! ## The three passes -/

theorem normalize_eq_ok : normalize s = .ok r ↔
    ∃ code, dropBlockComments (blankDirectives s) = .ok code ∧
      respace (dropLineComments code) = r := by
  simp only [normalize, bind_eq_ok, pure, Except.pure, Except.ok.injEq]

/-- The passes leave the second text of the first, wherever it stands on its line. -/
def Reduces (t r : Text) : Prop :=
  ∃ t₁ t₂, Becomes t t₁ ∧ Drops t₁ t₂ ∧ dropLineComments t₂ = r

namespace Reduces

theorem normalize_eq (h : Reduces t r) : normalize t = .ok (respace r) := by
  obtain ⟨t₁, t₂, hbecomes, hdrops, rfl⟩ := h
  rw [normalize, hbecomes.blankDirectives_eq, dropBlockComments, hdrops]
  rfl

theorem nil : Reduces [] [] :=
  ⟨[], [], Becomes.nil, fun _ => dropBlockCommentsFrom_of_none rfl, dropLineComments_of_none rfl⟩

/-- Text without number signs and slashes stays as it is. -/
theorem plain (h : Reduces t r) (hsharp : '#' ∉ s) (hslash : '/' ∉ s) :
    Reduces (s ++ t) (s ++ r) := by
  obtain ⟨t₁, t₂, hbecomes, hdrops, rfl⟩ := h
  exact ⟨s ++ t₁, s ++ t₂, hbecomes.append hsharp, hdrops.append hslash,
    dropLineComments_append hslash t₂⟩

/-- Of a line comment the line feed stays, if the block comments in it leave its slashes. -/
theorem line (h : Reduces t r) (hs : '\n' ∉ s)
    (hdrop : dropBlockComments ('/' :: '/' :: s) = .ok ('/' :: '/' :: u)) :
    Reduces ('/' :: '/' :: (s ++ '\n' :: t)) ('\n' :: r) := by
  obtain ⟨t₁, t₂, hbecomes, hdrops, rfl⟩ := h
  -- The comment is one line before and after block comments are left out of it.
  have hu : '\n' ∉ u := by
    intro hin
    have := mem_of_drops hdrop (c := '\n') (by simp [hin])
    simp [hs] at this
  refine ⟨_, _, ?_, drops_append_newline hdrop hdrops, dropLineComments_comment hu t₂⟩
  exact (Becomes.newline hbecomes.blankDirectives_eq).append_of_not_mem (c := '/') (s := '/' :: s)
    (by simp [hs]) (by decide) (by decide) (by decide)

/-- A block comment is left out, if its end stays. -/
theorem block (h : Reduces t r) (hs : ¬ ['*', '/'] <:+: s)
    (hend : blankDirectives ('/' :: '*' :: (s ++ ['*', '/'])) = u ++ ['*', '/']) :
    Reduces ('/' :: '*' :: (s ++ '*' :: '/' :: t)) r := by
  obtain ⟨t₁, t₂, hbecomes, hdrops, rfl⟩ := h
  rcases comment_cases s with ⟨s', hblanked, hstays⟩ | ⟨s', -, hblank⟩
  · have hs' : ¬ ['*', '/'] <:+: s' := fun hin =>
      hs (hblanked.infix_of_infix (by decide) (by decide) hin)
    exact ⟨_, _, hstays t t₁ hbecomes, hdrops.comment hs', rfl⟩
  · rw [hblank] at hend
    have hlast := (List.append_inj' (show ('/' :: '*' :: s') ++ [' ', ' '] = _ from hend) rfl).2
    simp at hlast

end Reduces

end NormalForm

end HeaderReflection
