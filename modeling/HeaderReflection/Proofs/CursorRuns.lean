/-
  HeaderReflection.Proofs.CursorRuns

  A cursor under any calls. Each call does one of three things: it finds the
  first identifier from its position on and goes behind it, it finds none and
  stays, or it advances. So a run only goes forward, what it finds stands in
  order, and asking again and again for one name finds all that there are.
-/
import HeaderReflection.Proofs.Stream
import Mathlib.Data.List.Chain
import Mathlib.Order.Bounds.Basic

namespace HeaderReflection

/-- The indices of the identifiers `name`, in order. -/
def TokenStream.identsOf (s : TokenStream) (name : Text) : List Nat :=
  (List.range s.size).filter (s.isIdent · name)

namespace Cursor

/-! ## Runs -/

/-- What can be asked of a cursor. -/
inductive Call
  | nextIdent (name : Text)
  | advanceTo (pos : Nat)

/-- A call with the positions before and after it, and the index that it found. -/
structure Step where
  call : Call
  before : Nat
  found : Option Nat
  after : Nat

/-- The index that a call finds, and the cursor behind the call. -/
def perform (c : Cursor) : Call → Option Nat × Cursor
  | .nextIdent name => c.nextIdent name
  | .advanceTo pos => (none, c.advanceTo pos)

/-- The steps of one call after the other. -/
def run (c : Cursor) : List Call → List Step
  | [] => []
  | call :: calls =>
    let (found, next) := c.perform call
    ⟨call, c.pos, found, next.pos⟩ :: run next calls

/-- What a call may do. -/
inductive Step.Allowed (s : TokenStream) : Step → Prop
  /-- The first identifier from the position on is found, and the cursor goes one past it. -/
  | found {name : Text} {pos k : Nat} (least : IsLeast {i | pos ≤ i ∧ s.isIdent i name = true} k) :
      Allowed s ⟨.nextIdent name, pos, some k, k + 1⟩
  /-- There is no identifier from the position on, and the cursor stays. -/
  | absent {name : Text} {pos : Nat} (none_left : ∀ i, pos ≤ i → s.isIdent i name = false) :
      Allowed s ⟨.nextIdent name, pos, none, pos⟩
  /-- The cursor advances, unless it is there already. -/
  | advanced {target pos : Nat} : Allowed s ⟨.advanceTo target, pos, none, max pos target⟩

variable {s : TokenStream} {name : Text} {pos k : Nat} {call : Call} {calls : List Call}
variable {st : Step}

/-! ## One call -/

theorem perform_of_some (h : s.findIdent pos s.size name = some k) :
    perform ⟨s, pos⟩ (.nextIdent name) = (some k, ⟨s, k + 1⟩) := by
  simp only [perform, nextIdent, h]

theorem perform_of_none (h : s.findIdent pos s.size name = none) :
    perform ⟨s, pos⟩ (.nextIdent name) = (none, ⟨s, pos⟩) := by
  simp only [perform, nextIdent, h]

/-- Every call does what it may, in the same stream. -/
theorem perform_allowed (s : TokenStream) (pos : Nat) (call : Call) :
    ∃ found after, perform ⟨s, pos⟩ call = (found, ⟨s, after⟩) ∧
      Step.Allowed s ⟨call, pos, found, after⟩ := by
  cases call with
  | advanceTo target => exact ⟨none, max pos target, rfl, .advanced⟩
  | nextIdent name =>
    cases hfind : s.findIdent pos s.size name with
    | none =>
      exact ⟨none, pos, perform_of_none hfind,
        .absent (TokenStream.findIdent_size_eq_none.1 hfind)⟩
    | some k =>
      obtain ⟨⟨hpos, -⟩, hk, hfirst⟩ := TokenStream.findIdent_eq_some.1 hfind
      refine ⟨some k, k + 1, perform_of_some hfind, .found ⟨⟨hpos, hk⟩, ?_⟩⟩
      rintro i ⟨hi, hident⟩
      by_contra hlt
      simp [hfirst i hi (by omega)] at hident

namespace Step.Allowed

/-- No call goes back. -/
theorem before_le_after (h : st.Allowed s) : st.before ≤ st.after := by
  cases h with
  | found least => exact Nat.le_succ_of_le least.1.1
  | absent => exact Nat.le_refl _
  | advanced => exact Nat.le_max_left _ _

/-- What is found lies between the positions. -/
theorem found_bounds (h : st.Allowed s) (hk : st.found = some k) :
    st.before ≤ k ∧ k < st.after := by
  cases h with
  | found least =>
    obtain rfl := Option.some.inj hk
    exact ⟨least.1.1, Nat.lt_succ_self _⟩
  | absent => simp at hk
  | advanced => simp at hk

end Step.Allowed

/-! ## Whole runs -/

theorem run_cons {found : Option Nat} {after : Nat}
    (h : perform ⟨s, pos⟩ call = (found, ⟨s, after⟩)) :
    run ⟨s, pos⟩ (call :: calls) = ⟨call, pos, found, after⟩ :: run ⟨s, after⟩ calls := by
  simp only [run, h]

theorem map_call_run (s : TokenStream) (pos : Nat) (calls : List Call) :
    (run ⟨s, pos⟩ calls).map (·.call) = calls := by
  induction calls generalizing pos with
  | nil => rfl
  | cons call calls ih =>
      obtain ⟨found, after, hperform, -⟩ := perform_allowed s pos call
      rw [run_cons hperform, List.map_cons, ih]

/-- All steps of a run are allowed, and none of them starts before the run does. -/
theorem allowed_of_mem_run (h : st ∈ run ⟨s, pos⟩ calls) : st.Allowed s ∧ pos ≤ st.before := by
  induction calls generalizing pos with
  | nil => simp [run] at h
  | cons call calls ih =>
      obtain ⟨found, after, hperform, hallowed⟩ := perform_allowed s pos call
      rw [run_cons hperform, List.mem_cons] at h
      rcases h with rfl | h
      · exact ⟨hallowed, Nat.le_refl _⟩
      · obtain ⟨hst, hafter⟩ := ih h
        exact ⟨hst, hallowed.before_le_after.trans hafter⟩

/-- Each step starts where the one before it ends. -/
theorem isChain_run (s : TokenStream) (pos : Nat) (calls : List Call) :
    (run ⟨s, pos⟩ calls).IsChain (fun st st' => st.after = st'.before) ∧
      ∀ st ∈ (run ⟨s, pos⟩ calls).head?, st.before = pos := by
  induction calls generalizing pos with
  | nil => simp [run]
  | cons call calls ih =>
      obtain ⟨found, after, hperform, -⟩ := perform_allowed s pos call
      obtain ⟨hchain, hhead⟩ := ih after
      rw [run_cons hperform]
      exact ⟨List.isChain_cons.2 ⟨fun st hst => (hhead st hst).symm, hchain⟩, by simp⟩

/-- No later step starts before an earlier one ends. -/
theorem pairwise_run (s : TokenStream) (pos : Nat) (calls : List Call) :
    (run ⟨s, pos⟩ calls).Pairwise fun st st' => st.after ≤ st'.before := by
  induction calls generalizing pos with
  | nil => exact List.Pairwise.nil
  | cons call calls ih =>
      obtain ⟨found, after, hperform, -⟩ := perform_allowed s pos call
      rw [run_cons hperform]
      exact List.Pairwise.cons (fun st hst => (allowed_of_mem_run hst).2) (ih after)

/-- The positions of a run never fall. -/
theorem positions_run (s : TokenStream) (pos : Nat) (calls : List Call) :
    ((run ⟨s, pos⟩ calls).flatMap fun st => [st.before, st.after]).Pairwise (· ≤ ·) := by
  refine List.pairwise_flatMap.2 ⟨fun st hst => ?_, ?_⟩
  · simpa using (allowed_of_mem_run hst).1.before_le_after
  · refine (pairwise_run s pos calls).imp_of_mem fun {st st'} hst hst' hle => ?_
    have := (allowed_of_mem_run hst).1.before_le_after
    have := (allowed_of_mem_run hst').1.before_le_after
    simp only [List.mem_cons, List.not_mem_nil, or_false, forall_eq_or_imp, forall_eq]
    omega

/-- What a run finds stands in order. -/
theorem found_run (s : TokenStream) (pos : Nat) (calls : List Call) :
    ((run ⟨s, pos⟩ calls).filterMap (·.found)).Pairwise (· < ·) := by
  refine List.pairwise_filterMap.2 ((pairwise_run s pos calls).imp_of_mem ?_)
  intro st st' hst hst' hle k hk k' hk'
  have := (allowed_of_mem_run hst).1.found_bounds hk
  have := (allowed_of_mem_run hst').1.found_bounds hk'
  omega

/-! ## One name again and again -/

/-- The first identifier from a position on comes before those behind it. -/
theorem filter_indices_of_some (h : s.findIdent pos s.size name = some k) :
    (s.indices pos s.size).filter (s.isIdent · name) =
      k :: (s.indices (k + 1) s.size).filter (s.isIdent · name) := by
  obtain ⟨⟨hpos, hsize⟩, hk, hfirst⟩ := TokenStream.findIdent_eq_some.1 h
  obtain ⟨d, rfl⟩ := Nat.exists_eq_add_of_le hpos
  have hsplit : s.indices pos s.size =
      List.range' pos d ++ (pos + d) :: s.indices (pos + d + 1) s.size := by
    rw [TokenStream.indices, TokenStream.indices, Nat.min_self,
      show s.size - pos = d + (s.size - (pos + d + 1) + 1) by omega, ← List.range'_append_1,
      List.range'_succ]
  -- Nothing before the one that is found has the name.
  have hnone : (List.range' pos d).filter (s.isIdent · name) = [] := by
    apply List.filter_eq_nil_iff.2
    intro i hi
    rw [List.mem_range'_1] at hi
    simp [hfirst i hi.1 hi.2]
  rw [hsplit, List.filter_append, hnone, List.nil_append, List.filter_cons, if_pos hk]

/-- The `k`-th call finds the `k`-th identifier from the position on. -/
theorem found_run_replicate (s : TokenStream) (pos : Nat) (name : Text) (n : Nat) :
    (run ⟨s, pos⟩ (List.replicate n (.nextIdent name))).map (·.found) =
      (List.range n).map fun k => ((s.indices pos s.size).filter (s.isIdent · name))[k]? := by
  induction n generalizing pos with
  | zero => rfl
  | succ n ih =>
      rw [List.replicate_succ, List.range_succ_eq_map]
      cases hfind : s.findIdent pos s.size name with
      | none =>
        -- The cursor stays, so every further call fails as well.
        have hnil : (s.indices pos s.size).filter (s.isIdent · name) = [] :=
          List.filter_eq_nil_iff.2 (List.find?_eq_none.1 hfind)
        rw [run_cons (perform_of_none hfind), List.map_cons, ih, hnil]
        simp [Function.comp_def]
      | some k =>
        -- The identifiers behind the one that is found are left for the further calls.
        rw [run_cons (perform_of_some hfind), List.map_cons, ih, filter_indices_of_some hfind]
        simp

/-- Under any calls a fresh cursor does what each call allows, each from where the one before it left
off; so its position never falls, and what it finds stands in strictly increasing order. The `k`-th of
many calls for one name finds the `k`-th identifier of that name, and fails if there are no more. -/
theorem run_forward_complete (s : TokenStream) :
    (∀ calls : List Call,
      (s.cursor.run calls).map (·.call) = calls ∧
      (∀ st ∈ (s.cursor.run calls).head?, st.before = 0) ∧
      (s.cursor.run calls).IsChain (fun st st' => st.after = st'.before) ∧
      (∀ st ∈ s.cursor.run calls, st.Allowed s) ∧
      ((s.cursor.run calls).flatMap fun st => [st.before, st.after]).Pairwise (· ≤ ·) ∧
      ((s.cursor.run calls).filterMap (·.found)).Pairwise (· < ·)) ∧
    ∀ (name : Text) (n : Nat),
      (s.cursor.run (List.replicate n (.nextIdent name))).map (·.found) =
        (List.range n).map ((s.identsOf name)[·]?) := by
  refine ⟨fun calls => ?_, fun name n => ?_⟩
  · obtain ⟨hchain, hhead⟩ := isChain_run s 0 calls
    exact ⟨map_call_run s 0 calls, hhead, hchain, fun st hst => (allowed_of_mem_run hst).1,
      positions_run s 0 calls, found_run s 0 calls⟩
  · have hindices : s.indices 0 s.size = List.range s.size := by
      rw [TokenStream.indices, Nat.min_self, Nat.sub_zero, List.range_eq_range']
    rw [TokenStream.cursor, found_run_replicate, TokenStream.identsOf, hindices]

end Cursor

end HeaderReflection
