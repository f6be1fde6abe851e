/-
  HeaderReflection.Proofs.BracePairs

  The pairs of braces of a token stream. A pair is an opening brace with a
  closing one behind it, every opening brace is in a pair, and of two pairs
  either one ends before the other starts or one lies inside the other.
-/
import HeaderReflection.Proofs.Offsets

namespace HeaderReflection

namespace TokenStream

variable {s : TokenStream} {i : Nat} {t : Token} {ts : List Token}

/-- The tokens from an index on start with the token at that index. -/
theorem drop_eq_cons (h : s.tokens.toList.drop i = t :: ts) :
    s.token? i = some t ∧ s.tokens.toList.drop (i + 1) = ts := by
  constructor
  · have := congrArg List.head? h
    simpa [List.head?_drop, token?] using this
  · have := congrArg (List.drop 1) h
    simpa [List.drop_drop, Nat.add_comm] using this

theorem size_le_of_drop_eq_nil (h : s.tokens.toList.drop i = []) : s.size ≤ i := by
  simpa [size] using h

theorem isPunct_of_token? {c : Char} (ht : s.token? i = some t) : s.isPunct i c = t.isPunct c := by
  simp [isPunct, ht]

end TokenStream

open TokenStream

variable {s : TokenStream} {i : Nat} {opened : List (Nat × Nat)} {ts : List Token}
variable {pairs : List (Nat × Nat)}

/-! ## One step of the pairing -/

theorem pairBracesFrom_cons_open {t : Token} (h : t.isPunct '{') :
    pairBracesFrom i opened (t :: ts) = pairBracesFrom (i + 1) ((i, t.start) :: opened) ts := by
  simp [pairBracesFrom, h]

theorem pairBracesFrom_cons_close {t : Token} {q : Nat × Nat} (h : t.isPunct '}') :
    pairBracesFrom i (q :: opened) (t :: ts) = do
      let pairs ← pairBracesFrom (i + 1) opened ts
      return (q.1, i) :: pairs := by
  have hne : t.isPunct '{' = false := by simp_all [Token.isPunct]
  simp [pairBracesFrom, h, hne]

theorem pairBracesFrom_nil_close {t : Token} (h : t.isPunct '}') :
    pairBracesFrom i [] (t :: ts) = .error (.unmatchedClose t.start) := by
  have hne : t.isPunct '{' = false := by simp_all [Token.isPunct]
  simp [pairBracesFrom, h, hne]

theorem pairBracesFrom_cons_other {t : Token} (hl : ¬ t.isPunct '{') (hr : ¬ t.isPunct '}') :
    pairBracesFrom i opened (t :: ts) = pairBracesFrom (i + 1) opened ts := by
  simp [pairBracesFrom, hl, hr]

/-! ## A run of the pairing

The stack holds opening braces before index `i`, the innermost first. -/

/-- What the stack of open braces holds on the way. -/
structure OpenBraces (s : TokenStream) (i : Nat) (opened : List (Nat × Nat)) : Prop where
  isPunct : ∀ q ∈ opened, s.isPunct q.1 '{'
  lt : ∀ q ∈ opened, q.1 < i
  sorted : opened.Pairwise fun q r => r.1 < q.1

theorem OpenBraces.nil : OpenBraces s i [] :=
  ⟨by simp, by simp, List.Pairwise.nil⟩

theorem OpenBraces.step (h : OpenBraces s i opened) : OpenBraces s (i + 1) opened :=
  ⟨h.isPunct, fun q hq => by have := h.lt q hq; omega, h.sorted⟩

theorem OpenBraces.push (h : OpenBraces s i opened) (hi : s.isPunct i '{') (offset : Nat) :
    OpenBraces s (i + 1) ((i, offset) :: opened) := by
  refine ⟨fun q hq => ?_, fun q hq => ?_, List.Pairwise.cons (fun q hq => h.lt q hq) h.sorted⟩
  · rcases List.mem_cons.1 hq with rfl | hq
    · exact hi
    · exact h.isPunct q hq
  · rcases List.mem_cons.1 hq with rfl | hq
    · exact Nat.lt_succ_self i
    · exact Nat.lt_succ_of_lt (h.lt q hq)

theorem OpenBraces.pop {q : Nat × Nat} (h : OpenBraces s i (q :: opened)) :
    OpenBraces s (i + 1) opened :=
  ⟨fun r hr => h.isPunct r (List.mem_cons_of_mem _ hr),
    fun r hr => Nat.lt_succ_of_lt (h.lt r (List.mem_cons_of_mem _ hr)), h.sorted.of_cons⟩

/-- What a run of the pairing gives from index `i` on. -/
structure PairsFrom (s : TokenStream) (i : Nat) (opened pairs : List (Nat × Nat)) : Prop where
  opening : ∀ p ∈ pairs, s.isPunct p.1 '{'
  closing : ∀ p ∈ pairs, s.isPunct p.2 '}'
  lt : ∀ p ∈ pairs, p.1 < p.2
  le : ∀ p ∈ pairs, i ≤ p.2
  /-- A pair that starts before `i` comes from the stack. -/
  start : ∀ p ∈ pairs, p.1 < i → p.1 ∈ opened.map (·.1)
  /-- Two pairs are nested or apart. -/
  laminar : ∀ p ∈ pairs, ∀ q ∈ pairs, p.1 < q.1 → p.2 < q.1 ∨ q.2 < p.2
  /-- Every brace on the stack is closed. -/
  opened_closed : ∀ o ∈ opened.map (·.1), ∃ c, (o, c) ∈ pairs
  /-- Every opening brace that is still to come is closed. -/
  later_closed : ∀ o, i ≤ o → s.isPunct o '{' → ∃ c, (o, c) ∈ pairs
  /-- No brace is closed twice. -/
  unique : pairs.Pairwise fun p q => p.1 ≠ q.1

/-- An opening brace at `i` is closed like the braces that were open before it. -/
theorem PairsFrom.of_push {offset : Nat}
    (hrun : PairsFrom s (i + 1) ((i, offset) :: opened) pairs) : PairsFrom s i opened pairs := by
  refine { hrun with le := ?le, start := ?start, opened_closed := ?opened, later_closed := ?later }
  case le =>
    intro p hp
    exact Nat.le_of_succ_le (hrun.le p hp)
  case start =>
    intro p hp hlt
    rcases List.mem_cons.1 (hrun.start p hp (by omega)) with heq | hmem
    · simp only at heq
      omega
    · exact hmem
  case opened =>
    intro o ho
    exact hrun.opened_closed o (List.mem_cons_of_mem _ ho)
  case later =>
    -- The brace at `i` itself is on the stack of the run behind it.
    intro o ho hp
    rcases Nat.eq_or_lt_of_le ho with rfl | ho
    · exact hrun.opened_closed i (by simp)
    · exact hrun.later_closed o ho hp

/-- A closing brace at `i` makes a pair with the top of the stack. -/
theorem PairsFrom.of_pop {q : Nat × Nat} (hopen : OpenBraces s i (q :: opened))
    (hi : s.isPunct i '}') (hrun : PairsFrom s (i + 1) opened pairs) :
    PairsFrom s i (q :: opened) ((q.1, i) :: pairs) := by
  have hq := hopen.isPunct q (by simp)
  have hqi := hopen.lt q (by simp)
  -- The other braces on the stack stand before the top.
  have hbelow : ∀ o ∈ opened.map (·.1), o < q.1 := by
    intro o ho
    obtain ⟨r, hr, rfl⟩ := List.mem_map.1 ho
    exact List.rel_of_pairwise_cons hopen.sorted hr
  constructor
  case opening => exact List.forall_mem_cons.2 ⟨hq, hrun.opening⟩
  case closing => exact List.forall_mem_cons.2 ⟨hi, hrun.closing⟩
  case lt => exact List.forall_mem_cons.2 ⟨hqi, hrun.lt⟩
  case le =>
    exact List.forall_mem_cons.2 ⟨Nat.le_refl i, fun p hp => Nat.le_of_succ_le (hrun.le p hp)⟩
  case start =>
    refine List.forall_mem_cons.2 ⟨fun _ => by simp, fun p hp hlt => ?_⟩
    exact List.mem_cons_of_mem _ (hrun.start p hp (by omega))
  case laminar =>
    -- The new pair goes around those that start behind its brace and lies inside the others.
    refine List.forall_mem_cons.2 ⟨?_, fun p hp => ?_⟩
    · refine List.forall_mem_cons.2 ⟨fun hlt => absurd hlt (Nat.lt_irrefl _), fun r hr hlt => ?_⟩
      by_cases hri : r.1 < i + 1
      · have := hbelow r.1 (hrun.start r hr hri)
        omega
      · exact Or.inl (by omega)
    · refine List.forall_mem_cons.2 ⟨fun _ => Or.inr (hrun.le p hp), fun r hr => ?_⟩
      exact hrun.laminar p hp r hr
  case opened_closed =>
    refine List.forall_mem_cons.2 ⟨⟨i, by simp⟩, fun o ho => ?_⟩
    obtain ⟨c, hc⟩ := hrun.opened_closed o ho
    exact ⟨c, List.mem_cons_of_mem _ hc⟩
  case later_closed =>
    intro o ho hp
    have hne : o ≠ i := by
      rintro rfl
      simpa using eq_of_isPunct hp hi
    obtain ⟨c, hc⟩ := hrun.later_closed o (by omega) hp
    exact ⟨c, List.mem_cons_of_mem _ hc⟩
  case unique =>
    refine List.Pairwise.cons (fun p hp heq => ?_) hrun.unique
    by_cases hlt : p.1 < i + 1
    · have := hbelow p.1 (hrun.start p hp hlt)
      omega
    · omega

/-- A run of the pairing keeps the stack and its result in step. -/
theorem pairsFrom_of_pairBracesFrom (hts : s.tokens.toList.drop i = ts)
    (hopen : OpenBraces s i opened) (h : pairBracesFrom i opened ts = .ok pairs) :
    PairsFrom s i opened pairs := by
  -- By induction on the tokens, one case for each kind of token. The stack says which braces before
  -- `i` are still open, so it changes with the index.
  induction ts generalizing i opened pairs with
  | nil =>
      cases opened with
      | cons q outer => simp [pairBracesFrom] at h
      | nil =>
        obtain rfl : [] = pairs := by simpa [pairBracesFrom] using h
        have hsize := size_le_of_drop_eq_nil hts
        refine ⟨by simp, by simp, by simp, by simp, by simp, by simp, by simp, fun o ho hp => ?_,
          List.Pairwise.nil⟩
        have := lt_size_of_isPunct hp
        omega
  | cons t ts ih =>
      obtain ⟨ht, hts⟩ := drop_eq_cons hts
      by_cases hl : t.isPunct '{'
      · rw [pairBracesFrom_cons_open hl] at h
        have hi : s.isPunct i '{' := by rw [isPunct_of_token? ht]; exact hl
        exact (ih hts (hopen.push hi t.start) h).of_push
      by_cases hr : t.isPunct '}'
      · cases opened with
        | nil => simp [pairBracesFrom_nil_close hr] at h
        | cons q outer =>
          rw [pairBracesFrom_cons_close hr, bind_eq_ok] at h
          obtain ⟨pairs', hrest, h⟩ := h
          obtain rfl := Except.ok.inj h
          have hi : s.isPunct i '}' := by rw [isPunct_of_token? ht]; exact hr
          exact (ih hts hopen.pop hrest).of_pop hopen hi
      · rw [pairBracesFrom_cons_other hl hr] at h
        have hrun := ih hts hopen.step h
        refine { hrun with le := ?_, start := ?_, later_closed := ?_ }
        · intro p hp
          exact Nat.le_of_succ_le (hrun.le p hp)
        · intro p hp hlt
          exact hrun.start p hp (by omega)
        · intro o ho hp
          have hne : o ≠ i := by
            rintro rfl
            rw [isPunct_of_token? ht] at hp
            exact hl hp
          exact hrun.later_closed o (by omega) hp

/-! ## The closing brace of an opening one -/

namespace TokenStream

variable {source : Text} {o c o' c' : Nat}

theorem pairsFrom_of_tokenize (h : tokenize source = .ok s) : PairsFrom s 0 [] s.bracePairs := by
  obtain ⟨pairs, hpairs, rfl⟩ := tokenize_eq_ok.1 h
  exact pairsFrom_of_pairBracesFrom (by simp) OpenBraces.nil hpairs

theorem mem_bracePairs_of_closer (h : s.closer o = some c) : (o, c) ∈ s.bracePairs := by
  obtain ⟨p, hp, rfl⟩ := Option.map_eq_some_iff.1 h
  have ho : p.1 = o := by simpa using List.find?_some hp
  rw [← ho]
  exact List.mem_of_find?_eq_some hp

/-- A pair is an opening brace with a closing one behind it. -/
theorem closer_spec (h : tokenize source = .ok s) (hc : s.closer o = some c) :
    s.isPunct o '{' ∧ s.isPunct c '}' ∧ o < c := by
  have hpairs := pairsFrom_of_tokenize h
  have hmem := mem_bracePairs_of_closer hc
  exact ⟨hpairs.opening _ hmem, hpairs.closing _ hmem, hpairs.lt _ hmem⟩

/-- Every opening brace is closed. -/
theorem exists_closer (h : tokenize source = .ok s) (ho : s.isPunct o '{') :
    ∃ c, s.closer o = some c := by
  obtain ⟨c, hc⟩ := (pairsFrom_of_tokenize h).later_closed o (Nat.zero_le o) ho
  obtain ⟨p, hp⟩ : ∃ p, s.bracePairs.find? (·.1 == o) = some p := by
    rw [← Option.isSome_iff_exists, List.find?_isSome]
    exact ⟨_, hc, by simp⟩
  exact ⟨p.2, by simp [closer, hp]⟩

/-- The pairs say what closes a brace. -/
theorem closer_eq_of_mem (h : tokenize source = .ok s) (hc : (o, c) ∈ s.bracePairs) :
    s.closer o = some c := by
  have hunique := (pairsFrom_of_tokenize h).unique
  obtain ⟨front, back, hpairs⟩ := List.append_of_mem hc
  rw [hpairs, List.pairwise_append] at hunique
  have hfront : front.find? (·.1 == o) = none := by
    rw [List.find?_eq_none]
    intro p hp
    simpa using hunique.2.2 p hp (o, c) List.mem_cons_self
  rw [closer, hpairs, List.find?_append, hfront]
  simp

/-- Two pairs of braces are apart or nested. -/
theorem closer_laminar (h : tokenize source = .ok s) (hc : s.closer o = some c)
    (hc' : s.closer o' = some c') (hlt : o < o') : c < o' ∨ c' < c :=
  (pairsFrom_of_tokenize h).laminar _ (mem_bracePairs_of_closer hc) _
    (mem_bracePairs_of_closer hc') hlt

end TokenStream

end HeaderReflection
