/-
  HeaderReflection.Proofs.Balance

  Balanced lists of tokens. They are paired by themselves, whatever stands
  around them, and a brace is closed by the one behind a balanced list.
-/
import HeaderReflection.Proofs.BracePairs

namespace HeaderReflection

/-- Every brace has its partner in the list. -/
inductive Balanced : List TokenKind → Prop
  | nil : Balanced []
  | other {k : TokenKind} {ks : List TokenKind} (hl : k ≠ .punct '{') (hr : k ≠ .punct '}')
      (h : Balanced ks) : Balanced (k :: ks)
  | braces {ks ls : List TokenKind} (h : Balanced ks) (h' : Balanced ls) :
      Balanced (.punct '{' :: (ks ++ .punct '}' :: ls))

variable {s : TokenStream} {source : Text} {i : Nat} {ks ls : List TokenKind}
variable {front ts us rest : List Token} {t u : Token} {opened pairs : List (Nat × Nat)}

theorem Balanced.append (h : Balanced ks) (h' : Balanced ls) : Balanced (ks ++ ls) := by
  induction h with
  | nil => exact h'
  | other hl hr _ ih => exact other hl hr ih
  | braces h _ _ ih =>
      rw [List.cons_append, List.append_assoc, List.cons_append]
      exact braces h ih

theorem Balanced.of_forall (h : ∀ k ∈ ks, k ≠ .punct '{' ∧ k ≠ .punct '}') : Balanced ks := by
  induction ks with
  | nil => exact nil
  | cons k ks ih =>
      rw [List.forall_mem_cons] at h
      exact other h.1.1 h.1.2 (ih h.2)

theorem isPunct_of_kind {c : Char} (h : t.kind = .punct c) : t.isPunct c := by
  simp [Token.isPunct, h]

/-- Balanced tokens are paired by themselves. -/
theorem exists_pairs_of_balanced (h : Balanced (ts.map (·.kind))) (i : Nat) :
    ∃ pairs, ∀ opened rest, pairBracesFrom i opened (ts ++ rest) = do
      let later ← pairBracesFrom (i + ts.length) opened rest
      return pairs ++ later := by
  -- The pairs depend on the index alone: whatever is on the stack stays below the balanced tokens.
  generalize hks : ts.map (·.kind) = ks at h
  induction h generalizing ts i with
  | nil =>
      obtain rfl : ts = [] := by simpa using hks
      refine ⟨[], fun opened rest => ?_⟩
      simp
  | @other k ks hl hr h ih =>
      obtain ⟨t, ts, rfl, ht, hts⟩ := List.map_eq_cons_iff.1 hks
      obtain ⟨pairs, hpairs⟩ := ih (i + 1) hts
      refine ⟨pairs, fun opened rest => ?_⟩
      have hl' : ¬ t.isPunct '{' := by simpa [Token.isPunct, ht] using hl
      have hr' : ¬ t.isPunct '}' := by simpa [Token.isPunct, ht] using hr
      rw [List.cons_append, pairBracesFrom_cons_other hl' hr', hpairs, List.length_cons,
        Nat.add_assoc, Nat.add_comm 1]
  | @braces ks ls h h' ih ih' =>
      obtain ⟨t, ts, rfl, ht, hts⟩ := List.map_eq_cons_iff.1 hks
      obtain ⟨us, vs, rfl, hus, hvs⟩ := List.map_eq_append_iff.1 hts
      obtain ⟨u, vs, rfl, hu, hvs⟩ := List.map_eq_cons_iff.1 hvs
      obtain ⟨inner, hinner⟩ := ih (i + 1) hus
      obtain ⟨later, hlater⟩ := ih' (i + 1 + us.length + 1) hvs
      refine ⟨inner ++ (i, i + 1 + us.length) :: later, fun opened rest => ?_⟩
      have hlen : i + (t :: (us ++ u :: vs)).length = i + 1 + us.length + 1 + vs.length := by
        simp only [List.length_cons, List.length_append]
        omega
      rw [List.cons_append, pairBracesFrom_cons_open (isPunct_of_kind ht), List.append_assoc, hinner,
        List.cons_append, pairBracesFrom_cons_close (isPunct_of_kind hu), hlater, hlen]
      simp

/-- A text whose tokens are balanced has a token stream. -/
theorem exists_tokenize_of_balanced (h : Balanced ((Token.scan source).map (·.kind))) :
    ∃ s, tokenize source = .ok s := by
  obtain ⟨pairs, hpairs⟩ := exists_pairs_of_balanced h 0
  have hrun := hpairs [] []
  rw [List.append_nil] at hrun
  exact ⟨_, TokenStream.tokenize_eq_ok.2 ⟨_, hrun, rfl⟩⟩

/-- What is paired in the back part of a list is paired in the whole. -/
theorem exists_run_of_append (h : pairBracesFrom i opened (front ++ rest) = .ok pairs) :
    ∃ opened' later, pairBracesFrom (i + front.length) opened' rest = .ok later ∧
      ∀ p ∈ later, p ∈ pairs := by
  induction front generalizing i opened pairs with
  | nil => exact ⟨opened, pairs, h, fun p hp => hp⟩
  | cons t front ih =>
      rw [List.length_cons, Nat.add_comm front.length, ← Nat.add_assoc]
      by_cases hl : t.isPunct '{'
      · rw [List.cons_append, pairBracesFrom_cons_open hl] at h
        exact ih h
      by_cases hr : t.isPunct '}'
      · cases opened with
        | nil => simp [pairBracesFrom_nil_close hr] at h
        | cons q outer =>
          rw [List.cons_append, pairBracesFrom_cons_close hr, bind_eq_ok] at h
          obtain ⟨pairs', hrest, h⟩ := h
          obtain rfl := Except.ok.inj h
          obtain ⟨opened', later, hlater, hsub⟩ := ih hrest
          exact ⟨opened', later, hlater, fun p hp => List.mem_cons_of_mem _ (hsub p hp)⟩
      · rw [List.cons_append, pairBracesFrom_cons_other hl hr] at h
        exact ih h

/-- An opening brace is closed by the brace behind the balanced tokens that follow it. -/
theorem closer_of_balanced (hs : tokenize source = .ok s)
    (htokens : s.tokens.toList = front ++ t :: (ts ++ u :: rest)) (ht : t.kind = .punct '{')
    (hts : Balanced (ts.map (·.kind))) (hu : u.kind = .punct '}') :
    s.closer front.length = some (front.length + 1 + ts.length) := by
  obtain ⟨pairs, hpairs, rfl⟩ := TokenStream.tokenize_eq_ok.1 hs
  refine TokenStream.closer_eq_of_mem hs ?_
  -- The run reaches the brace with some stack, and the pair of the brace is on top of that.
  rw [pairBraces, show Token.scan source = _ from htokens] at hpairs
  obtain ⟨opened, later, hlater, hsub⟩ := exists_run_of_append hpairs
  refine hsub _ ?_
  obtain ⟨inner, hinner⟩ := exists_pairs_of_balanced hts (0 + front.length + 1)
  rw [pairBracesFrom_cons_open (isPunct_of_kind ht), hinner,
    pairBracesFrom_cons_close (isPunct_of_kind hu)] at hlater
  obtain ⟨outer, houter, hlater⟩ := bind_eq_ok.1 hlater
  obtain rfl := Except.ok.inj hlater
  obtain ⟨last, -, houter⟩ := bind_eq_ok.1 houter
  obtain rfl := Except.ok.inj houter
  simp

end HeaderReflection
