/-
  HeaderReflection.Proofs.BraceMatching

  The pairing of braces said without a stack. A text has a token stream if its
  braces are balanced, and a brace is closed by the one behind the balanced
  tokens that follow it. Where they are not balanced, counting the braces finds
  the one that is reported: the first closing brace too many, or else the last
  opening brace without a partner.
-/
import HeaderReflection.Proofs.Balance

namespace HeaderReflection

/-! ## Braces of a list of kinds -/

/-- The kinds of the tokens of a text. -/
def Token.kinds (source : Text) : List TokenKind :=
  (scan source).map (·.kind)

/-- An opening brace at `i` and a closing brace at `j` with balanced tokens between them. -/
structure IsPair (ks : List TokenKind) (i j : Nat) : Prop where
  opening : ks[i]? = some (.punct '{')
  closing : ks[j]? = some (.punct '}')
  lt : i < j
  inside : Balanced ((ks.take j).drop (i + 1))

/-- A closing brace at `k` with as many closing as opening braces before it. -/
def IsExcess (ks : List TokenKind) (k : Nat) : Prop :=
  ks[k]? = some (.punct '}') ∧ (ks.take k).count (.punct '}') = (ks.take k).count (.punct '{')

/-- An opening brace at `k` without a partner. -/
def IsUnpaired (ks : List TokenKind) (k : Nat) : Prop :=
  ks[k]? = some (.punct '{') ∧ ∀ j, ¬ IsPair ks k j

/-- No first part of the list closes more than `n` braces that it has not opened. -/
def Fits (n : Nat) (ks : List TokenKind) : Prop :=
  ∀ p, p <+: ks → p.count (.punct '}') ≤ p.count (.punct '{') + n

/-- The list closes `n` braces that it has not opened, and is balanced but for them. -/
inductive Closes : Nat → List TokenKind → Prop
  | zero {ks : List TokenKind} (h : Balanced ks) : Closes 0 ks
  | succ {n : Nat} {ks ls : List TokenKind} (h : Balanced ks) (h' : Closes n ls) :
      Closes (n + 1) (ks ++ .punct '}' :: ls)

variable {i j k n : Nat} {a : TokenKind} {ks ls before after : List TokenKind}

/-! ## Counting -/

namespace Fits

theorem nil : Fits n [] := by
  intro p hp
  rw [List.prefix_nil.1 hp]
  simp

theorem other (hl : a ≠ .punct '{') (hr : a ≠ .punct '}') (h : Fits n ks) : Fits n (a :: ks) := by
  intro p hp
  rcases List.prefix_cons_iff.1 hp with rfl | ⟨q, rfl, hq⟩
  · simp
  · rw [List.count_cons_of_ne hl, List.count_cons_of_ne hr]
    exact h q hq

theorem opening (h : Fits (n + 1) ks) : Fits n (.punct '{' :: ks) := by
  intro p hp
  rcases List.prefix_cons_iff.1 hp with rfl | ⟨q, rfl, hq⟩
  · simp
  · have := h q hq
    rw [List.count_cons_self, List.count_cons_of_ne (by decide)]
    omega

theorem closing (h : Fits n ks) : Fits (n + 1) (.punct '}' :: ks) := by
  intro p hp
  rcases List.prefix_cons_iff.1 hp with rfl | ⟨q, rfl, hq⟩
  · simp
  · have := h q hq
    rw [List.count_cons_self, List.count_cons_of_ne (by decide)]
    omega

/-- A closing brace that is too many ends a first part that closes one brace too many. -/
theorem not_isExcess (h : Fits 0 ks) : ¬ IsExcess ks k := by
  rintro ⟨hk, hcount⟩
  have hprefix := h (ks.take (k + 1)) (List.take_prefix _ _)
  have hone : List.count (TokenKind.punct '{') [.punct '}'] = 0 := rfl
  rw [List.take_add_one, hk, List.count_append, List.count_append, hcount, Option.toList_some,
    List.count_singleton_self, hone] at hprefix
  omega

end Fits

namespace Balanced

theorem count_eq (h : Balanced ks) : ks.count (.punct '}') = ks.count (.punct '{') := by
  induction h with
  | nil => rfl
  | other hl hr _ ih => rw [List.count_cons_of_ne hl, List.count_cons_of_ne hr, ih]
  | braces _ _ ih ih' =>
      rw [List.count_cons_self, List.count_cons_of_ne (by decide), List.count_append,
        List.count_append, List.count_cons_self, List.count_cons_of_ne (by decide), ih, ih']
      omega

theorem fits_append (h : Balanced ks) (h' : Fits n ls) : Fits n (ks ++ ls) := by
  induction h generalizing n ls with
  | nil => exact h'
  | other hl hr _ ih => exact (ih h').other hl hr
  | braces _ _ ih ih' =>
      rw [List.cons_append, List.append_assoc, List.cons_append]
      exact (ih (ih' h').closing).opening

theorem fits (h : Balanced ks) : Fits n ks := by
  rw [← List.append_nil ks]
  exact h.fits_append Fits.nil

/-! ## Partners -/

/-- An opening brace of balanced tokens has its partner behind balanced ones. -/
theorem exists_closing (h : Balanced ks) (hks : ks = before ++ .punct '{' :: after) :
    ∃ inside rest, after = inside ++ .punct '}' :: rest ∧ Balanced inside := by
  induction h generalizing before after with
  | nil => simp at hks
  | other hl hr h ih =>
      cases before with
      | nil => exact absurd (List.cons.inj hks).1 hl
      | cons b before => exact ih (List.cons.inj hks).2
  | @braces ks ls h h' ih ih' =>
      -- The brace is the first one, or it is one of those inside or one of those behind.
      cases before with
      | nil => exact ⟨ks, ls, (List.cons.inj hks).2.symm, h⟩
      | cons b before =>
          rcases List.append_eq_append_iff.1 (List.cons.inj hks).2 with
            ⟨front, rfl, hfront⟩ | ⟨back, rfl, hback⟩
          · cases front with
            | nil => simp at hfront
            | cons f front => exact ih' (List.cons.inj hfront).2
          · cases back with
            | nil => simp at hback
            | cons b' back =>
                obtain ⟨rfl, rfl⟩ := List.cons.inj hback
                obtain ⟨inside, rest, rfl, hinside⟩ := ih rfl
                exact ⟨inside, rest ++ .punct '}' :: ls, by simp, hinside⟩

/-- A closing brace of balanced tokens has its partner before balanced ones. -/
theorem exists_opening (h : Balanced ks) (hks : ks = before ++ .punct '}' :: after) :
    ∃ rest inside, before = rest ++ .punct '{' :: inside ∧ Balanced inside := by
  induction h generalizing before after with
  | nil => simp at hks
  | other hl hr h ih =>
      cases before with
      | nil => exact absurd (List.cons.inj hks).1 hr
      | cons b before =>
          obtain ⟨rest, inside, rfl, hinside⟩ := ih (List.cons.inj hks).2
          exact ⟨b :: rest, inside, rfl, hinside⟩
  | @braces ks ls h h' ih ih' =>
      -- The brace is one of those behind or one of those inside, or it closes the first one.
      cases before with
      | nil => simp at hks
      | cons b before =>
          obtain ⟨rfl, hrest⟩ := List.cons.inj hks
          rcases List.append_eq_append_iff.1 hrest with ⟨front, rfl, hfront⟩ | ⟨back, rfl, hback⟩
          · cases front with
            | nil => exact ⟨[], ks, by simp, h⟩
            | cons f front =>
                obtain ⟨rfl, rfl⟩ := List.cons.inj hfront
                obtain ⟨rest, inside, rfl, hinside⟩ := ih' rfl
                exact ⟨.punct '{' :: (ks ++ .punct '}' :: rest), inside, by simp, hinside⟩
          · cases back with
            | nil => exact ⟨[], before, rfl, by simpa using h⟩
            | cons b' back =>
                obtain ⟨rfl, rfl⟩ := List.cons.inj hback
                obtain ⟨rest, inside, rfl, hinside⟩ := ih rfl
                exact ⟨.punct '{' :: rest, inside, rfl, hinside⟩

end Balanced

theorem drop_take_append (before inside after : List TokenKind) :
    ((before ++ a :: (inside ++ after)).take (before.length + 1 + inside.length)).drop
      (before.length + 1) = inside := by
  have hdrop : (before ++ a :: (inside ++ after)).drop (before.length + 1) = inside ++ after := by
    rw [List.drop_length_add_append, List.drop_one, List.tail_cons]
  rw [List.drop_take, hdrop, Nat.add_sub_cancel_left, List.take_left]

/-- The parts of the list before, between and behind a pair. -/
theorem isPair_iff : IsPair ks i j ↔ ∃ before inside after,
    ks = before ++ .punct '{' :: (inside ++ .punct '}' :: after) ∧ Balanced inside ∧
      before.length = i ∧ before.length + 1 + inside.length = j := by
  constructor
  · rintro ⟨hi, hj, hlt, hinside⟩
    obtain ⟨before, rest, rfl, rfl⟩ := exists_append_of_getElem? hi
    obtain ⟨d, rfl⟩ : ∃ d, j = before.length + 1 + d := Nat.exists_eq_add_of_le hlt
    have hrest : rest[d]? = some (.punct '}') := by
      rw [List.getElem?_append_right (by omega)] at hj
      simpa [show before.length + 1 + d - before.length = d + 1 by omega] using hj
    obtain ⟨inside, after, rfl, rfl⟩ := exists_append_of_getElem? hrest
    rw [drop_take_append] at hinside
    exact ⟨before, inside, after, rfl, hinside, rfl, rfl⟩
  · rintro ⟨before, inside, after, rfl, hinside, rfl, rfl⟩
    refine ⟨by simp, ?_, by omega, by rwa [drop_take_append]⟩
    rw [List.getElem?_append_right (by omega), Nat.add_assoc, Nat.add_sub_cancel_left, Nat.add_comm 1,
      List.getElem?_cons_succ, List.getElem?_append_right (Nat.le_refl _), Nat.sub_self]
    rfl

/-- A pair is one in a longer list. -/
theorem IsPair.append_left (h : IsPair ks i j) (front : List TokenKind) :
    IsPair (front ++ ks) (front.length + i) (front.length + j) := by
  obtain ⟨before, inside, after, rfl, hinside, rfl, rfl⟩ := isPair_iff.1 h
  refine isPair_iff.2 ⟨front ++ before, inside, after, by simp, hinside, List.length_append, ?_⟩
  rw [List.length_append]
  omega

/-- Every opening brace of balanced tokens has a partner. -/
theorem Balanced.exists_isPair (h : Balanced ks) (hi : ks[i]? = some (.punct '{')) :
    ∃ j, IsPair ks i j := by
  obtain ⟨before, after, rfl, rfl⟩ := exists_append_of_getElem? hi
  obtain ⟨inside, rest, rfl, hinside⟩ := h.exists_closing rfl
  exact ⟨_, isPair_iff.2 ⟨before, inside, rest, rfl, hinside, rfl, rfl⟩⟩

/-- Every closing brace of balanced tokens has a partner. -/
theorem Balanced.exists_isPair_closing (h : Balanced ks) (hj : ks[j]? = some (.punct '}')) :
    ∃ i, IsPair ks i j := by
  obtain ⟨before, after, rfl, rfl⟩ := exists_append_of_getElem? hj
  obtain ⟨rest, inside, rfl, hinside⟩ := h.exists_opening rfl
  refine ⟨_, isPair_iff.2 ⟨rest, inside, after, by simp, hinside, rfl, ?_⟩⟩
  simp only [List.length_append, List.length_cons]
  omega

/-! ## What an error names -/

/-- Behind balanced tokens the next closing brace is the first one too many. -/
theorem Balanced.isExcess_length (h : Balanced before) (after : List TokenKind) :
    IsExcess (before ++ .punct '}' :: after) before.length ∧
      ∀ k < before.length, ¬ IsExcess (before ++ .punct '}' :: after) k := by
  refine ⟨⟨by simp, by simpa using h.count_eq⟩, fun k hk hexcess => ?_⟩
  refine h.fits.not_isExcess (k := k) ?_
  rwa [IsExcess, List.getElem?_append_left hk, List.take_append_of_le_length (Nat.le_of_lt hk)]
    at hexcess

/-- Before balanced tokens an opening brace is the last one without a partner. -/
theorem Balanced.isUnpaired_length (h : Balanced after) :
    IsUnpaired (before ++ .punct '{' :: after) before.length ∧
      ∀ k, before.length < k → ¬ IsUnpaired (before ++ .punct '{' :: after) k := by
  refine ⟨⟨by simp, fun j hj => ?_⟩, fun k hk hunpaired => ?_⟩
  · -- The brace that closes it would be too many in what follows.
    obtain ⟨front, inside, rest, hsplit, hinside, hlen, -⟩ := isPair_iff.1 hj
    obtain ⟨rfl, hafter⟩ := List.append_inj hsplit hlen.symm
    rw [(List.cons.inj hafter).2] at h
    exact h.fits.not_isExcess (hinside.isExcess_length rest).1
  · obtain ⟨d, rfl⟩ := Nat.exists_eq_add_of_le hk
    have hsplit : before ++ .punct '{' :: after = (before ++ [.punct '{']) ++ after := by simp
    have hlen : (before ++ [TokenKind.punct '{']).length = before.length.succ := by simp
    rw [hsplit, ← hlen, IsUnpaired, List.getElem?_append_right (Nat.le_add_right _ _),
      Nat.add_sub_cancel_left] at hunpaired
    obtain ⟨j, hj⟩ := h.exists_isPair hunpaired.1
    exact hunpaired.2 _ (hj.append_left _)

/-! ## A run of the pairing -/

namespace Closes

theorem other (hl : a ≠ .punct '{') (hr : a ≠ .punct '}') (h : Closes n ks) :
    Closes n (a :: ks) := by
  cases h with
  | zero h => exact zero (.other hl hr h)
  | succ h h' => exact succ (.other hl hr h) h'

theorem balanced (h : Closes 0 ks) : Balanced ks := by
  cases h with
  | zero h => exact h

/-- The first brace that the list closes is the one put in front of it. -/
theorem opening (h : Closes (n + 1) ks) : Closes n (.punct '{' :: ks) := by
  cases h with
  | succ h h' =>
      cases h' with
      | zero h' => exact zero (.braces h h')
      | succ h' h'' => simpa using succ (.braces h h') h''

theorem closing (h : Closes n ks) : Closes (n + 1) (.punct '}' :: ks) :=
  succ .nil h

end Closes

/-- What a pairing comes to, with some braces open before its tokens, the innermost first. -/
inductive Settles (opened : List (Nat × Nat)) :
    List Token → Except ParseError (List (Nat × Nat)) → Prop
  /-- The tokens close the open braces. -/
  | paired {ts : List Token} {pairs : List (Nat × Nat)}
      (h : Closes opened.length (ts.map (·.kind))) : Settles opened ts (.ok pairs)
  /-- The tokens close the open braces and one more. -/
  | excess (before : List Token) {after : List Token} {t : Token}
      (h : Closes opened.length (before.map (·.kind))) (ht : t.kind = .punct '}') :
      Settles opened (before ++ t :: after) (.error (.unmatchedClose t.start))
  /-- One of the tokens is a brace that is left open. -/
  | unclosed (before : List Token) {after : List Token} {t : Token}
      (hfits : Fits opened.length ((before ++ t :: after).map (·.kind)))
      (ht : t.kind = .punct '{') (h : Balanced (after.map (·.kind))) :
      Settles opened (before ++ t :: after) (.error (.unterminatedScope t.start))
  /-- The tokens close some of the open braces, but not all. -/
  | outer (m : Nat) {ts : List Token} {q : Nat × Nat} (h : Closes m (ts.map (·.kind)))
      (hq : opened[m]? = some q) : Settles opened ts (.error (.unterminatedScope q.2))

namespace Settles

variable {opened : List (Nat × Nat)} {q : Nat × Nat} {t : Token} {ts : List Token}
variable {r : Except ParseError (List (Nat × Nat))}

theorem other (hl : t.kind ≠ .punct '{') (hr : t.kind ≠ .punct '}') (h : Settles opened ts r) :
    Settles opened (t :: ts) r := by
  cases h with
  | paired h => exact paired (h.other hl hr)
  | @excess before after u h hu => exact excess (t :: before) (h.other hl hr) hu
  | @unclosed before after u hfits hu h =>
      exact unclosed (t :: before) (hfits.other hl hr) hu h
  | outer m h hq => exact outer m (h.other hl hr) hq

theorem push (ht : t.kind = .punct '{') (h : Settles ((i, t.start) :: opened) ts r) :
    Settles opened (t :: ts) r := by
  cases h with
  | paired h =>
      refine paired ?_
      rw [List.map_cons, ht]
      exact h.opening
  | @excess before after u h hu =>
      refine excess (t :: before) ?_ hu
      rw [List.map_cons, ht]
      exact h.opening
  | @unclosed before after u hfits hu h =>
      refine unclosed (t :: before) ?_ hu h
      rw [List.cons_append, List.map_cons, ht]
      exact hfits.opening
  | @outer m ts q h hq =>
      cases m with
      | zero =>
          -- The brace that is left open is the one that was pushed.
          obtain rfl : (i, t.start) = q := by simpa using hq
          refine unclosed [] ?_ ht h.balanced
          rw [List.nil_append, List.map_cons, ht]
          exact h.balanced.fits.opening
      | succ m =>
          refine outer m ?_ hq
          rw [List.map_cons, ht]
          exact h.opening

theorem pop (ht : t.kind = .punct '}') (h : Settles opened ts r) (p : Nat × Nat) :
    Settles (q :: opened) (t :: ts) (do let pairs ← r; return p :: pairs) := by
  cases h with
  | paired h =>
      refine paired ?_
      rw [List.map_cons, ht]
      exact h.closing
  | @excess before after u h hu =>
      refine excess (t :: before) ?_ hu
      rw [List.map_cons, ht]
      exact h.closing
  | @unclosed before after u hfits hu h =>
      refine unclosed (t :: before) ?_ hu h
      rw [List.cons_append, List.map_cons, ht]
      exact hfits.closing
  | @outer m ts q' h hq =>
      refine outer (m + 1) ?_ hq
      rw [List.map_cons, ht]
      exact h.closing

end Settles

/-- A run of the pairing comes to one of these. -/
theorem settles_pairBracesFrom (i : Nat) (opened : List (Nat × Nat)) (ts : List Token) :
    Settles opened ts (pairBracesFrom i opened ts) := by
  -- By induction on the tokens, one case for each kind of token.
  induction ts generalizing i opened with
  | nil =>
      cases opened with
      | nil => exact .paired (.zero .nil)
      | cons q outer => exact .outer 0 (.zero .nil) rfl
  | cons t ts ih =>
      by_cases hl : t.isPunct '{'
      · rw [pairBracesFrom_cons_open hl]
        exact (ih _ _).push (by simpa [Token.isPunct] using hl)
      by_cases hr : t.isPunct '}'
      · have ht : t.kind = .punct '}' := by simpa [Token.isPunct] using hr
        cases opened with
        | nil =>
          rw [pairBracesFrom_nil_close hr]
          exact .excess [] (.zero .nil) ht
        | cons q outer =>
          rw [pairBracesFrom_cons_close hr]
          exact (ih _ _).pop ht _
      · rw [pairBracesFrom_cons_other hl hr]
        exact (ih _ _).other (by simpa [Token.isPunct] using hl) (by simpa [Token.isPunct] using hr)

/-! ## The braces of a text -/

section Streams

variable {s : TokenStream} {source : Text} {e : ParseError} {c : Char}

theorem isPunct_iff_kinds (h : tokenize source = .ok s) :
    s.isPunct i c ↔ (Token.kinds source)[i]? = some (.punct c) := by
  rw [TokenStream.isPunct, TokenStream.token?_of_tokenize h, Token.kinds, List.getElem?_map]
  cases (Token.scan source)[i]? <;> simp [Token.isPunct]

theorem balanced_of_tokenize (h : tokenize source = .ok s) : Balanced (Token.kinds source) := by
  obtain ⟨pairs, hpairs, -⟩ := TokenStream.tokenize_eq_ok.1 h
  have hrun := settles_pairBracesFrom 0 [] (Token.scan source)
  rw [← pairBraces, hpairs] at hrun
  rw [Token.kinds]
  generalize Token.scan source = ts at hrun ⊢
  cases hrun with
  | paired h => exact h.balanced

/-- A brace is closed by the one that makes a pair with it. -/
theorem closer_eq_some_iff (h : tokenize source = .ok s) :
    s.closer i = some j ↔ IsPair (Token.kinds source) i j := by
  have hcloser : ∀ {i j}, IsPair (Token.kinds source) i j → s.closer i = some j := by
    intro i j hpair
    obtain ⟨before, inside, after, hsplit, hinside, rfl, rfl⟩ := isPair_iff.1 hpair
    obtain ⟨front, ts, htokens, rfl, hts⟩ := List.map_eq_append_iff.1 hsplit
    obtain ⟨t, ts, rfl, ht, hts⟩ := List.map_eq_cons_iff.1 hts
    obtain ⟨us, vs, rfl, rfl, hvs⟩ := List.map_eq_append_iff.1 hts
    obtain ⟨u, vs, rfl, hu, rfl⟩ := List.map_eq_cons_iff.1 hvs
    have hs : s.tokens.toList = front ++ t :: (us ++ u :: vs) := by
      obtain ⟨pairs, -, rfl⟩ := TokenStream.tokenize_eq_ok.1 h
      exact htokens
    simpa using closer_of_balanced h hs ht hinside hu
  -- A brace that is closed makes some pair, and is closed by the other brace of that.
  refine ⟨fun hclose => ?_, hcloser⟩
  have hopen := (isPunct_iff_kinds h).1 (TokenStream.closer_spec h hclose).1
  obtain ⟨j', hpair⟩ := (balanced_of_tokenize h).exists_isPair hopen
  obtain rfl : j' = j := by simpa [hclose] using (hcloser hpair).symm
  exact hpair

/-- No two braces are closed by the same one. -/
theorem existsUnique_opener (h : tokenize source = .ok s) (hj : s.isPunct j '}') :
    ∃! i, s.closer i = some j := by
  obtain ⟨i, hpair⟩ := (balanced_of_tokenize h).exists_isPair_closing ((isPunct_iff_kinds h).1 hj)
  have hi := (closer_eq_some_iff h).2 hpair
  refine ⟨i, hi, fun i' hi' => ?_⟩
  -- Of two braces closed by the same one the later would have to be closed before it.
  have hlt := (TokenStream.closer_spec h hi).2.2
  have hlt' := (TokenStream.closer_spec h hi').2.2
  rcases Nat.lt_trichotomy i i' with hii' | rfl | hii'
  · have := TokenStream.closer_laminar h hi hi' hii'
    omega
  · rfl
  · have := TokenStream.closer_laminar h hi' hi hii'
    omega

/-- The brace that an error of the pairing is about. -/
theorem braces_of_tokenize_eq_error (h : tokenize source = .error e) :
    (∃ k t, (Token.scan source)[k]? = some t ∧ e = .unmatchedClose t.start ∧
      IsExcess (Token.kinds source) k ∧ ∀ j < k, ¬ IsExcess (Token.kinds source) j) ∨
    (∀ k, ¬ IsExcess (Token.kinds source) k) ∧
      ∃ k t, (Token.scan source)[k]? = some t ∧ e = .unterminatedScope t.start ∧
        IsUnpaired (Token.kinds source) k ∧ ∀ j, k < j → ¬ IsUnpaired (Token.kinds source) j := by
  have hrun := settles_pairBracesFrom 0 [] (Token.scan source)
  rw [← pairBraces, bind_pure_eq_error.1 h] at hrun
  rw [Token.kinds]
  generalize Token.scan source = ts at hrun ⊢
  cases hrun with
  | @excess before after t hbefore ht =>
      have hlen : before.length = (before.map (·.kind)).length := by simp
      refine .inl ⟨before.length, t, by simp, rfl, ?_⟩
      rw [List.map_append, List.map_cons, ht, hlen]
      exact hbefore.balanced.isExcess_length _
  | @unclosed before after t hfits ht hafter =>
      have hlen : before.length = (before.map (·.kind)).length := by simp
      refine .inr ⟨fun k => hfits.not_isExcess, before.length, t, by simp, rfl, ?_⟩
      rw [List.map_append, List.map_cons, ht, hlen]
      exact hafter.isUnpaired_length
  | outer m h hq => simp at hq

end Streams

/-- A text has a token stream if and only if its braces are balanced. Then a brace is closed by the
one with which it makes a pair, every opening and every closing brace is in just one pair, and two pairs
are apart or nested. Otherwise the error is about the first closing brace too many, or, if there is
none, about the last opening brace without a partner. -/
theorem tokenize_matches_braces (source : Text) :
    ((∃ s, tokenize source = .ok s) ↔ Balanced (Token.kinds source)) ∧
    (∀ s, tokenize source = .ok s →
      (∀ i j, s.closer i = some j ↔ IsPair (Token.kinds source) i j) ∧
      (∀ i, s.isPunct i '{' → ∃ j, s.isPunct j '}' ∧ s.closer i = some j) ∧
      (∀ j, s.isPunct j '}' → ∃! i, s.closer i = some j) ∧
      (∀ i j i' j', s.closer i = some j → s.closer i' = some j' → i < i' → j < i' ∨ j' < j) ∧
      ∀ i, ¬ s.isPunct i '{' → s.closer i = none) ∧
    ∀ e, tokenize source = .error e →
      (∃ k t, (Token.scan source)[k]? = some t ∧ e = .unmatchedClose t.start ∧
        IsExcess (Token.kinds source) k ∧ ∀ j < k, ¬ IsExcess (Token.kinds source) j) ∨
      (∀ k, ¬ IsExcess (Token.kinds source) k) ∧
        ∃ k t, (Token.scan source)[k]? = some t ∧ e = .unterminatedScope t.start ∧
          IsUnpaired (Token.kinds source) k ∧
          ∀ j, k < j → ¬ IsUnpaired (Token.kinds source) j := by
  refine ⟨⟨?_, exists_tokenize_of_balanced⟩, fun s h => ⟨?_, ?_, ?_, ?_, ?_⟩,
    fun e h => braces_of_tokenize_eq_error h⟩
  · rintro ⟨s, h⟩
    exact balanced_of_tokenize h
  · intro i j
    exact closer_eq_some_iff h
  · intro i hi
    obtain ⟨j, hj⟩ := TokenStream.exists_closer h hi
    exact ⟨j, (TokenStream.closer_spec h hj).2.1, hj⟩
  · intro j hj
    exact existsUnique_opener h hj
  · intro i j i' j' hj hj' hlt
    exact TokenStream.closer_laminar h hj hj' hlt
  · intro i hi
    cases hj : s.closer i with
    | none => rfl
    | some j => exact absurd (TokenStream.closer_spec h hj).1 hi

/-- Braces around a literal brace, a text with a closing brace too many, and one with an opening brace
that is left open. -/
theorem tokenize_matches_braces_nested :
    (∃ s, tokenize "a\x7bb\x7b'\x7d'\x7dc\x7b\x7d\x7d".toList = .ok s ∧ s.closer 1 = some 9 ∧
      IsPair (Token.kinds "a\x7bb\x7b'\x7d'\x7dc\x7b\x7d\x7d".toList) 1 9) ∧
    (tokenize "\x7b\x7d\x7d\x7b".toList = .error (.unmatchedClose 2) ∧
      ∃ k, IsExcess (Token.kinds "\x7b\x7d\x7d\x7b".toList) k) ∧
    tokenize "\x7b \x7ba \x7b\x7d".toList = .error (.unterminatedScope 2) ∧
      ∃ k, IsUnpaired (Token.kinds "\x7b \x7ba \x7b\x7d".toList) k := by
  have hclose : (tokenize "a\x7bb\x7b'\x7d'\x7dc\x7b\x7d\x7d".toList >>=
      fun s => Except.ok (s.closer 1)) = .ok (some 9) := by
    decide +kernel
  have hexcess : pairBraces (Token.scan "\x7b\x7d\x7d\x7b".toList) = .error (.unmatchedClose 2) := by
    decide +kernel
  have hopen : pairBraces (Token.scan "\x7b \x7ba \x7b\x7d".toList) =
      .error (.unterminatedScope 2) := by
    decide +kernel
  refine ⟨?_, ⟨bind_pure_eq_error.2 hexcess, ?_⟩, bind_pure_eq_error.2 hopen, ?_⟩
  · obtain ⟨s, hs, hcloser⟩ := bind_eq_ok.1 hclose
    injection hcloser with hcloser
    exact ⟨s, hs, hcloser, (((tokenize_matches_braces _).2.1 s hs).1 1 9).1 hcloser⟩
  · rcases (tokenize_matches_braces _).2.2 _ (bind_pure_eq_error.2 hexcess) with
      ⟨k, t, -, -, hk, -⟩ | ⟨-, k, t, -, he, -⟩
    · exact ⟨k, hk⟩
    · cases he
  · rcases (tokenize_matches_braces _).2.2 _ (bind_pure_eq_error.2 hopen) with
      ⟨k, t, -, he, -⟩ | ⟨-, k, t, -, -, hk, -⟩
    · cases he
    · exact ⟨k, hk⟩

end HeaderReflection
