/-
  HeaderReflection.Proofs.Segments

  A header as code between comments. The comments leave no trace in its normal
  form if each of them is contained in itself, and a comment is contained just
  when it leaves no trace by itself.
-/
import HeaderReflection.Proofs.Comments
import HeaderReflection.Proofs.Spacing

namespace HeaderReflection

open NormalForm

/-! ## Code and comments -/

/-- A part of a header. -/
inductive Segment
  /-- Code without directives, literals and continued lines. -/
  | code (text : Text) (plain : ∀ c ∈ ['/', '#', '\\', '"', '\''], c ∉ text)
  /-- A comment up to the end of its line, with the line feed. -/
  | line (inside : Text) (oneLine : ∀ c ∈ ['\n', '\r'], c ∉ inside)
      (ends : inside.getLast? ≠ some '\\')
  /-- A comment with an end of its own. -/
  | block (inside : Text) (noEnd : ¬ ['*', '/'] <:+: inside)

namespace Segment

/-- The characters of the part. -/
def text : Segment → Text
  | code s _ => s
  | line s _ _ => '/' :: '/' :: (s ++ ['\n'])
  | block s _ => '/' :: '*' :: (s ++ ['*', '/'])

/-- What the part is without its comment: of a line comment the line feed stays. -/
def bare : Segment → Text
  | code s _ => s
  | line _ _ _ => ['\n']
  | block _ _ => []

/-- The comment is contained in itself. In a line comment every block comment is closed, and none
takes the slashes; in a block comment the end is on no line of a directive. -/
def Contained : Segment → Prop
  | code _ _ => True
  | line s _ _ => ∃ u, dropBlockComments ('/' :: '/' :: s) = .ok ('/' :: '/' :: u)
  | block s _ => ∃ u, blankDirectives ('/' :: '*' :: (s ++ ['*', '/'])) = u ++ ['*', '/']

/-- The text of the parts in a row. -/
def textOf (segs : List Segment) : Text :=
  segs.flatMap text

/-- The code of the parts in a row. -/
def bareOf (segs : List Segment) : Text :=
  segs.flatMap bare

variable {s t r : Text} {seg : Segment} {segs : List Segment}

/-! ## Contained comments -/

/-- A part whose comment is contained loses its comment, whatever follows. -/
theorem Contained.reduces (h : seg.Contained) (ht : Reduces t r) :
    Reduces (seg.text ++ t) (seg.bare ++ r) := by
  cases seg with
  | code s plain => exact ht.plain (plain '#' (by simp)) (plain '/' (by simp))
  | line s oneLine ends =>
      obtain ⟨u, hu⟩ := h
      simpa [text, bare] using ht.line (oneLine '\n' (by simp)) hu
  | block s noEnd =>
      obtain ⟨u, hu⟩ := h
      simpa [text, bare] using ht.block noEnd hu

theorem reduces_textOf (h : ∀ seg ∈ segs, seg.Contained) : Reduces (textOf segs) (bareOf segs) := by
  induction segs with
  | nil => exact Reduces.nil
  | cons seg segs ih =>
      rw [List.forall_mem_cons] at h
      exact h.1.reduces (ih h.2)

/-- What is left of a part by itself is no comment. -/
theorem reduces_bare (seg : Segment) (ht : Reduces t r) :
    Reduces (seg.bare ++ t) (seg.bare ++ r) := by
  cases seg with
  | code s plain => exact ht.plain (plain '#' (by simp)) (plain '/' (by simp))
  | line => exact ht.plain (s := ['\n']) (by decide) (by decide)
  | block => exact ht

theorem normalize_bare (seg : Segment) : normalize seg.bare = .ok (respace seg.bare) := by
  simpa using (reduces_bare seg Reduces.nil).normalize_eq

theorem reduces_bareOf (segs : List Segment) : Reduces (bareOf segs) (bareOf segs) := by
  induction segs with
  | nil => exact Reduces.nil
  | cons seg segs ih => exact reduces_bare seg ih

/-! ## Comments by themselves -/

/-- A block comment that leaves no trace by itself is contained: otherwise its end is blanked, and it
is not closed. -/
theorem contained_of_block {noEnd : ¬ ['*', '/'] <:+: s}
    (h : normalize (block s noEnd).text = normalize (block s noEnd).bare) :
    (block s noEnd).Contained := by
  rcases comment_cases s with ⟨s', -, hstays⟩ | ⟨s', hblanked, hblank⟩
  · exact ⟨'/' :: '*' :: s', (hstays [] [] Becomes.nil).blankDirectives_eq⟩
  · have hopen : Text.breakAt '/' '*' ('/' :: '*' :: (s' ++ [' ', ' '])) =
        some ([], s' ++ [' ', ' ']) := by
      simp [Text.breakAt]
    have hclose : Text.breakAt '*' '/' (s' ++ [' ', ' ']) = none := by
      have hs' : Text.breakAt '*' '/' s' = none :=
        Text.breakAt_eq_none_iff.2 fun hin =>
          noEnd (hblanked.infix_of_infix (by decide) (by decide) hin)
      rw [Text.breakAt_append_of_none hs' (Or.inr (by decide))]
      rfl
    rw [normalize_bare, text, normalize, hblank, dropBlockComments,
      dropBlockCommentsFrom_of_open hopen hclose] at h
    simp [bind, Except.bind] at h

/-- Of two slashes the first stays, whatever block comments follow. -/
theorem exists_cons_of_dropBlockComments
    (h : dropBlockComments ('/' :: '/' :: s) = .ok r) : ∃ u, r = '/' :: u := by
  have hbreak : Text.breakAt '/' '*' ('/' :: '/' :: s) =
      (Text.breakAt '/' '*' ('/' :: s)).map (Prod.map ('/' :: ·) id) := by
    rw [Text.breakAt]
    rfl
  cases hopen : Text.breakAt '/' '*' ('/' :: s) with
  | none =>
      rw [hopen, Option.map_none] at hbreak
      obtain rfl := Except.ok.inj (h.symm.trans (dropBlockCommentsFrom_of_none hbreak))
      exact ⟨_, rfl⟩
  | some parts =>
      rw [hopen, Option.map_some] at hbreak
      cases hclose : Text.breakAt '*' '/' parts.2 with
      | none =>
          rw [dropBlockComments, dropBlockCommentsFrom_of_open hbreak hclose] at h
          simp at h
      | some ends =>
          rw [dropBlockComments, dropBlockCommentsFrom_of_closed hbreak hclose] at h
          obtain ⟨rest, -, h⟩ := bind_eq_ok.1 h
          obtain rfl := Except.ok.inj h
          exact ⟨_, rfl⟩

/-- A slash that no slash follows is no line comment. -/
theorem mem_dropLineComments (h : t.head? ≠ some '/') : '/' ∈ dropLineComments ('/' :: t) := by
  have hbreak : Text.breakAt '/' '/' ('/' :: t) =
      (Text.breakAt '/' '/' t).map (Prod.map ('/' :: ·) id) := by
    cases t with
    | nil => rfl
    | cons c t =>
      rw [List.head?_cons, ne_eq, Option.some.injEq] at h
      rw [Text.breakAt, if_neg (by simpa using h)]
      rfl
  cases hopen : Text.breakAt '/' '/' t with
  | none =>
      rw [hopen, Option.map_none] at hbreak
      rw [dropLineComments_of_none hbreak]
      exact List.mem_cons_self
  | some parts =>
      rw [hopen, Option.map_some] at hbreak
      rw [dropLineComments_of_some hbreak]
      exact List.mem_append_left _ List.mem_cons_self

/-- A line comment that leaves no trace by itself is contained: otherwise a block comment in it is not
closed, or has taken a slash, and the other slash stays. -/
theorem contained_of_line {oneLine : ∀ c ∈ ['\n', '\r'], c ∉ s} {ends : s.getLast? ≠ some '\\'}
    (h : normalize (line s oneLine ends).text = normalize (line s oneLine ends).bare) :
    (line s oneLine ends).Contained := by
  have hstays : blankDirectives ('/' :: '/' :: (s ++ ['\n'])) = '/' :: '/' :: (s ++ ['\n']) := by
    have hfeed : Becomes ['\n'] ['\n'] := Becomes.newline rfl
    simpa using (hfeed.append_of_not_mem (c := '/') (s := '/' :: s)
      (by simpa using oneLine '\n' (by simp)) (by decide) (by decide)
      (by decide)).blankDirectives_eq
  rw [normalize_bare, text, normalize, hstays] at h
  obtain ⟨t₂, hdrop, hrespace⟩ := bind_eq_ok.1 h
  obtain ⟨r, hr⟩ := exists_of_append_newline (s := '/' :: '/' :: s) hdrop
  obtain rfl : r ++ ['\n'] = t₂ := by
    have := drops_append_newline hr (fun _ => dropBlockCommentsFrom_of_none rfl) (t := []) 0
    exact Except.ok.inj (this.symm.trans hdrop)
  obtain ⟨u, rfl⟩ := exists_cons_of_dropBlockComments hr
  by_cases hu : u.head? = some '/'
  · obtain ⟨v, rfl⟩ := List.head?_eq_some_iff.1 hu
    exact ⟨v, hr⟩
  · have hhead : (u ++ ['\n']).head? ≠ some '/' := by
      cases u with
      | nil => simp
      | cons c u => simpa using hu
    -- The slash that stays is in the normal form, and there is none in that of the bare segment.
    have hmem := mem_respace (by decide) (mem_dropLineComments hhead)
    rw [← List.cons_append, Except.ok.inj hrespace] at hmem
    simp [bare, respace, flatten, collapseSpaces, collapseSpacesFrom, tightenPunctuation,
      Text.contract, dropLeadingSpace] at hmem

/-- A comment is contained just when it leaves no trace by itself. -/
theorem contained_iff (seg : Segment) :
    seg.Contained ↔ normalize seg.text = normalize seg.bare := by
  constructor
  · intro h
    rw [normalize_bare]
    simpa using (h.reduces Reduces.nil).normalize_eq
  · intro h
    cases seg with
    | code => trivial
    | line => exact contained_of_line h
    | block => exact contained_of_block h

/-! ## All comments -/

/-- The comments of a header leave no trace if each of them is contained: the normal form is that of
the code alone, and so is what is extracted. A comment is contained just when it leaves no trace by
itself. -/
theorem normalize_textOf (segs : List Segment) :
    (∀ seg : Segment, seg.Contained ↔ normalize seg.text = normalize seg.bare) ∧
    ((∀ seg ∈ segs, seg.Contained) →
      normalize (textOf segs) = .ok (respace (bareOf segs)) ∧
      normalize (bareOf segs) = .ok (respace (bareOf segs)) ∧
      extractSource (textOf segs) = extractSource (bareOf segs)) := by
  refine ⟨contained_iff, fun h => ?_⟩
  have htext := (reduces_textOf h).normalize_eq
  have hbare := (reduces_bareOf segs).normalize_eq
  refine ⟨htext, hbare, ?_⟩
  rw [extractSource, extractSource, htext, hbare]

/-- A marked struct behind comments that hold an opener, an end and a directive. -/
theorem normalize_textOf_marked :
    let segs : List Segment := [
      line " /* x */ //".toList (by simp) (by simp),
      code "struct REFLECT_STRUCT A\x7b".toList (by simp),
      block " //\n#if\n".toList (by decide +kernel),
      code "int REFLECT(x);\x7d;".toList (by simp)]
    (∀ seg ∈ segs, seg.Contained) ∧
    normalize (textOf segs) = .ok "struct REFLECT_STRUCT A\x7bint REFLECT(x);\x7d;".toList ∧
    extractSource (textOf segs) = .ok ⟨[⟨"A".toList, [], ["x".toList]⟩], []⟩ := by
  intro segs
  have hcontained : ∀ seg ∈ segs, seg.Contained := by
    simp only [segs, List.forall_mem_cons]
    exact ⟨⟨"  //".toList, by decide +kernel⟩, trivial, ⟨"/* //\n   \n".toList, by decide +kernel⟩,
      trivial, by simp⟩
  obtain ⟨hnormalize, -, hextract⟩ := (normalize_textOf segs).2 hcontained
  refine ⟨hcontained, hnormalize.trans ?_, hextract.trans ?_⟩
  · decide +kernel
  · decide +kernel

/-- Comments that are not contained: a line comment that opens a block comment makes the header
unreadable, and a block comment whose end is on the line of a directive takes the code behind it. -/
theorem normalize_textOf_ne_bareOf :
    (let segs : List Segment :=
      [line " /*".toList (by simp) (by simp), code "int a;".toList (by simp)]
    normalize (textOf segs) = .error (.unterminatedComment 3) ∧
      normalize (bareOf segs) = .ok "int a;".toList) ∧
    (let segs : List Segment :=
      [block "\n#".toList (by decide +kernel), code "int a;\n".toList (by simp),
        block [] (by decide +kernel)]
    normalize (textOf segs) = .ok [] ∧ normalize (bareOf segs) = .ok "int a;".toList) := by
  decide +kernel

end Segment

end HeaderReflection
