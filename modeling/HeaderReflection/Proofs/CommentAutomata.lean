/-
  HeaderReflection.Proofs.CommentAutomata

  The two comment passes as automata that go over the text character by
  character. The passes search for the next opener and then for what ends it;
  the automata only look at the next two characters and at their state.
-/
import HeaderReflection.NormalForm.Comments
import HeaderReflection.Proofs.Search

namespace HeaderReflection.NormalForm

variable {c : Char} {n opener : Nat} {s r before after : Text}

/-! ## The automata -/

/-- The states of the automaton for block comments. -/
inductive BlockState
  /-- In code. -/
  | code
  /-- In the comment that begins at byte `opener`. -/
  | comment (opener : Nat)
  deriving DecidableEq, Repr

/-- The run of the automaton for block comments from byte `n` on. An opener and an end are taken
whole, so no character belongs to both. -/
def runBlocks : Nat → BlockState → Text → Except ParseError Text
  | _, .code, [] => .ok []
  | _, .comment opener, [] => .error (.unterminatedComment opener)
  | n, .code, '/' :: '*' :: r => runBlocks (n + 2) (.comment n) r
  | n, .code, c :: r => do
    let rest ← runBlocks (n + c.utf8Size) .code r
    return c :: rest
  | n, .comment _, '*' :: '/' :: r => runBlocks (n + 2) .code r
  | n, .comment opener, c :: r => runBlocks (n + c.utf8Size) (.comment opener) r

/-- The states of the automaton for line comments. -/
inductive LineState
  | code
  | comment
  deriving DecidableEq, Repr

/-- The run of the automaton for line comments. A line feed ends a comment and is no part of it. -/
def runLines : LineState → Text → Text
  | _, [] => []
  | .code, '/' :: '/' :: r => runLines .comment r
  | .code, c :: r => c :: runLines .code r
  | .comment, '\n' :: r => '\n' :: runLines .code r
  | .comment, _ :: r => runLines .comment r

/-! ## Block comments -/

/-- Code is copied up to the next character pair that opens a comment. -/
theorem runBlocks_code_cons (h : ¬ (c = '/' ∧ s.head? = some '*')) :
    runBlocks n .code (c :: s) = do
      let rest ← runBlocks (n + c.utf8Size) .code s
      return c :: rest := by
  rw [runBlocks]
  rintro r rfl rfl
  exact h ⟨rfl, rfl⟩

/-- In a comment every character is dropped up to the next pair that ends it. -/
theorem runBlocks_comment_cons (h : ¬ (c = '*' ∧ s.head? = some '/')) :
    runBlocks n (.comment opener) (c :: s) = runBlocks (n + c.utf8Size) (.comment opener) s := by
  rw [runBlocks]
  rintro r rfl rfl
  exact h ⟨rfl, rfl⟩

/-- Code without an opener is copied to its end. -/
theorem runBlocks_code_of_none (h : Text.breakAt '/' '*' s = none) :
    runBlocks n .code s = .ok s := by
  induction s generalizing n with
  | nil => rfl
  | cons c s ih =>
      rw [Text.breakAt_cons] at h
      split at h
      · simp at h
      · next hpair =>
        rw [runBlocks_code_cons hpair, ih (Option.map_eq_none_iff.1 h)]
        rfl

/-- Code is copied up to the next opener, and the comment begins there. -/
theorem runBlocks_code_of_some (h : Text.breakAt '/' '*' s = some (before, after)) :
    runBlocks n .code s = do
      let rest ← runBlocks (n + before.size + 2) (.comment (n + before.size)) after
      return before ++ rest := by
  induction s generalizing n before with
  | nil => simp [Text.breakAt] at h
  | cons c s ih =>
      rw [Text.breakAt_cons] at h
      split at h
      · next hpair =>
        obtain ⟨rfl, hstar⟩ := hpair
        obtain ⟨s, rfl⟩ := List.head?_eq_some_iff.1 hstar
        obtain ⟨rfl, rfl⟩ := Prod.mk.inj (Option.some.inj h)
        rw [runBlocks]
        simp
      · next hpair =>
        obtain ⟨⟨before, after⟩, hbreak, h⟩ := Option.map_eq_some_iff.1 h
        obtain ⟨rfl, rfl⟩ := Prod.mk.inj h
        rw [runBlocks_code_cons hpair, ih hbreak, Text.size_cons, Nat.add_assoc n]
        simp only [bind_assoc, pure_bind, List.cons_append]

/-- A comment that is not ended is reported where it begins. -/
theorem runBlocks_comment_of_none (h : Text.breakAt '*' '/' s = none) :
    runBlocks n (.comment opener) s = .error (.unterminatedComment opener) := by
  induction s generalizing n with
  | nil => rfl
  | cons c s ih =>
      rw [Text.breakAt_cons] at h
      split at h
      · simp at h
      · next hpair => rw [runBlocks_comment_cons hpair, ih (Option.map_eq_none_iff.1 h)]

/-- A comment is dropped up to its end, and code goes on behind it. -/
theorem runBlocks_comment_of_some (h : Text.breakAt '*' '/' s = some (before, after)) :
    runBlocks n (.comment opener) s = runBlocks (n + before.size + 2) .code after := by
  induction s generalizing n before with
  | nil => simp [Text.breakAt] at h
  | cons c s ih =>
      rw [Text.breakAt_cons] at h
      split at h
      · next hpair =>
        obtain ⟨rfl, hslash⟩ := hpair
        obtain ⟨s, rfl⟩ := List.head?_eq_some_iff.1 hslash
        obtain ⟨rfl, rfl⟩ := Prod.mk.inj (Option.some.inj h)
        rw [runBlocks]
        rfl
      · next hpair =>
        obtain ⟨⟨before, after⟩, hbreak, h⟩ := Option.map_eq_some_iff.1 h
        obtain ⟨rfl, rfl⟩ := Prod.mk.inj h
        rw [runBlocks_comment_cons hpair, ih hbreak, Text.size_cons, Nat.add_assoc n]

/-- From any byte on the pass does what the automaton does in code. -/
theorem dropBlockCommentsFrom_eq_runBlocks (start : Nat) (s : Text) :
    dropBlockCommentsFrom start s = runBlocks start .code s := by
  -- One step of the pass is a run through code and, if that ends, one through a comment.
  fun_induction dropBlockCommentsFrom start s with
  | case1 start s hopen => rw [runBlocks_code_of_none hopen]
  | case2 start s code r hopen hclose =>
      rw [runBlocks_code_of_some hopen, runBlocks_comment_of_none hclose]
      rfl
  | case3 start s code r hopen inside after hclose ih =>
      rw [runBlocks_code_of_some hopen, runBlocks_comment_of_some hclose, ih]

/-! ## Line comments -/

theorem runLines_code_cons (h : ¬ (c = '/' ∧ s.head? = some '/')) :
    runLines .code (c :: s) = c :: runLines .code s := by
  rw [runLines]
  rintro r rfl rfl
  exact h ⟨rfl, rfl⟩

/-- Code without an opener is copied to its end. -/
theorem runLines_code_of_none (h : Text.breakAt '/' '/' s = none) : runLines .code s = s := by
  induction s with
  | nil => rfl
  | cons c s ih =>
      rw [Text.breakAt_cons] at h
      split at h
      · simp at h
      · next hpair => rw [runLines_code_cons hpair, ih (Option.map_eq_none_iff.1 h)]

/-- Code is copied up to the next opener. -/
theorem runLines_code_of_some (h : Text.breakAt '/' '/' s = some (before, after)) :
    runLines .code s = before ++ runLines .comment after := by
  induction s generalizing before with
  | nil => simp [Text.breakAt] at h
  | cons c s ih =>
      rw [Text.breakAt_cons] at h
      split at h
      · next hpair =>
        obtain ⟨rfl, hslash⟩ := hpair
        obtain ⟨s, rfl⟩ := List.head?_eq_some_iff.1 hslash
        obtain ⟨rfl, rfl⟩ := Prod.mk.inj (Option.some.inj h)
        rw [runLines]
        rfl
      · next hpair =>
        obtain ⟨⟨before, after⟩, hbreak, h⟩ := Option.map_eq_some_iff.1 h
        obtain ⟨rfl, rfl⟩ := Prod.mk.inj h
        rw [runLines_code_cons hpair, ih hbreak, List.cons_append]

/-- A comment is dropped up to the end of its line, where code goes on. -/
theorem runLines_comment (s : Text) :
    runLines .comment s = runLines .code (s.dropWhile (· != '\n')) := by
  induction s with
  | nil => rfl
  | cons c s ih =>
      by_cases hc : c = '\n'
      · subst hc
        rw [runLines, List.dropWhile_cons_of_neg (by simp), runLines_code_cons (by simp)]
      · rw [List.dropWhile_cons_of_pos (by simpa using hc), ← ih, runLines]
        rintro rfl
        exact hc rfl

theorem dropLineComments_eq_runLines (s : Text) : dropLineComments s = runLines .code s := by
  fun_induction dropLineComments s with
  | case1 s hopen => rw [runLines_code_of_none hopen]
  | case2 s code r hopen ih => rw [runLines_code_of_some hopen, runLines_comment, ih]

/-- Whatever its state, the automaton passes on every line feed. -/
theorem count_runLines (state : LineState) (s : Text) :
    (runLines state s).count '\n' = s.count '\n' := by
  fun_induction runLines state s with
  | case1 => rfl
  | case2 r ih => rw [ih]; rfl
  | case3 c r _ ih => rw [List.count_cons, List.count_cons, ih]
  | case4 r ih => rw [List.count_cons, List.count_cons, ih]
  | case5 c r hc ih => rw [ih, List.count_cons_of_ne hc]

/-! ## Both passes -/

/-- Each comment pass gives what its automaton gives, an open comment and the byte where it begins
included, and the pass over line comments keeps every line feed. -/
theorem comment_passes_eq_automata (s : Text) :
    dropBlockComments s = runBlocks 0 .code s ∧ dropLineComments s = runLines .code s ∧
      (dropLineComments s).count '\n' = s.count '\n' := by
  refine ⟨dropBlockCommentsFrom_eq_runBlocks 0 s, dropLineComments_eq_runLines s, ?_⟩
  rw [dropLineComments_eq_runLines]
  exact count_runLines .code s

/-- The slash behind an opener's star ends no comment. -/
example : runBlocks 0 .code "a/*/b*/c/**/".toList = .ok "ac".toList := rfl

end HeaderReflection.NormalForm
