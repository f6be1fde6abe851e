/-
  HeaderReflection.Proofs.Joined.Scan

  The tokens and brace pairs of a text that goes on behind a semicolon. A last
  token that is a semicolon ends every token before it, so the tokens of what
  follows are those of that text by itself, at later bytes.
-/
import HeaderReflection.Proofs.Reading

namespace HeaderReflection

namespace Token

variable {c : Char} {l s g r x : Text} {kind : TokenKind} {n : Nat} {t : Token}

/-! ## The first token -/

theorem mem_of_mem_scanFrom (h : t ∈ scanFrom n s) (hkind : t.kind = .punct c) : c ∈ s := by
  obtain ⟨before, after, rfl, -⟩ := exists_append_of_mem_scanFrom h
  simp [lexeme_of_punct h hkind]

/-- The rest of an identifier is the same whatever stands behind a semicolon that follows it. -/
theorem identTail_of_semicolon {numeric : Bool} (hs : ';' ∈ s)
    (h : identTail numeric (l ++ (s ++ g)) = (l, s ++ g)) (x : Text) :
    identTail numeric (l ++ (s ++ x)) = (l, s ++ x) := by
  -- A quote in a number looks at the next character, which is not beyond the semicolon.
  have hhead : ∀ {r : Text}, ';' ∈ r → ∀ y, (r ++ y).head? = r.head? := by
    intro r hr y
    cases r with
    | nil => simp at hr
    | cons c r => rfl
  induction l with
  | nil =>
      cases s with
      | nil => simp at hs
      | cons d s =>
          rw [List.nil_append, List.cons_append, identTail] at h ⊢
          rcases List.mem_cons.1 hs with rfl | hs
          · have hword : Text.isWord ';' = false := by decide
            rw [if_neg (by simp [hword])]
          · rw [hhead hs] at h ⊢
            split at h
            · simp at h
            · next hd => rw [if_neg hd]
  | cons d l ih =>
      rw [List.cons_append, identTail] at h ⊢
      have hmem : ';' ∈ l ++ s := List.mem_append_right l hs
      rw [← List.append_assoc, hhead hmem, List.append_assoc] at h ⊢
      split at h
      · next hd =>
          simp only [Prod.mk.injEq, List.cons.injEq, true_and] at h
          rw [if_pos hd, ih (Prod.ext h.1 h.2)]
      · simp at h

/-- The rest of a literal is the same whatever stands behind the text that follows it. -/
theorem literalTail_of_mem {quote : Char} {escaped : Bool} (hs : s ≠ [])
    (h : literalTail quote escaped (l ++ (s ++ g)) = (l, s ++ g)) (x : Text) :
    literalTail quote escaped (l ++ (s ++ x)) = (l, s ++ x) := by
  induction l generalizing escaped with
  | nil =>
      cases s with
      | nil => exact absurd rfl hs
      | cons d s =>
          rw [List.nil_append, List.cons_append, literalTail] at h
          split at h <;> simp at h
  | cons d l ih =>
      rw [List.cons_append, literalTail] at h ⊢
      split at h
      · next hd =>
          simp only [Prod.mk.injEq, List.cons.injEq, true_and] at h
          obtain ⟨rfl, -⟩ := h
          rw [if_pos hd, List.nil_append]
      · next hd =>
          simp only [Prod.mk.injEq, List.cons.injEq, true_and] at h
          rw [if_neg hd, ih (Prod.ext h.1 h.2)]

/-- The first token is the same whatever stands behind a semicolon that follows it. -/
theorem cut_of_semicolon (hs : ';' ∈ s) (h : cut c (l ++ (s ++ g)) = (kind, l, s ++ g)) (x : Text) :
    cut c (l ++ (s ++ x)) = (kind, l, s ++ x) := by
  have hne : s ≠ [] := List.ne_nil_of_mem hs
  unfold cut at h ⊢
  split at h
  · next hc =>
      rw [Prod.mk.injEq] at h
      rw [if_pos hc, identTail_of_semicolon hs h.2, h.1]
  next hc =>
  split at h
  · next hquote =>
      rw [Prod.mk.injEq] at h
      rw [if_neg hc, if_pos hquote, literalTail_of_mem hne h.2, h.1]
  next hquote =>
  -- The second colon of a separator stands before the semicolon.
  obtain ⟨d, m, hm⟩ : ∃ d m, l ++ s = d :: m := List.exists_cons_of_ne_nil (by simp [hne])
  have hsplit : ∀ y, l ++ (s ++ y) = d :: (m ++ y) := by
    intro y
    rw [← List.append_assoc, hm, List.cons_append]
  rw [if_neg hc, if_neg hquote, hsplit, List.head?_cons]
  rw [hsplit, List.head?_cons] at h
  split at h
  · next hcolon =>
      simp only [Prod.mk.injEq, List.take_succ_cons, List.take_zero, List.drop_succ_cons,
        List.drop_zero] at h
      obtain ⟨rfl, rfl, hrest⟩ := h
      obtain ⟨-, rfl⟩ := List.cons.inj (show d :: s = d :: m from hm)
      rw [if_pos hcolon]
      rfl
  · next hcolon =>
      simp only [Prod.mk.injEq] at h
      obtain ⟨rfl, rfl, -⟩ := h
      obtain rfl : s = d :: m := hm
      rw [if_neg hcolon]
      rfl

/-! ## All tokens -/

theorem scanFrom_of_forall_blank (h : ∀ c ∈ s, Text.isBlank c) : scanFrom n s = [] := by
  induction s generalizing n with
  | nil =>
      rw [scanFrom.eq_def]
  | cons c s ih =>
      rw [List.forall_mem_cons] at h
      rw [scanFrom_of_blank h.1, ih h.2]

/-- The first token of a text whose last token is a semicolon is the same whatever goes on behind the
text, but for blanks at its end. -/
theorem exists_cut_append (hc : Text.isBlank c = false) (hg : ∀ c ∈ g, Text.isBlank c)
    (h : ∀ t, (scanFrom n (c :: (s ++ g))).getLast? = some t → t.kind = .punct ';') :
    ∃ kind l s', s = l ++ s' ∧ cut c (s ++ g) = (kind, l, s' ++ g) ∧
      ∀ x, cut c (s ++ x) = (kind, l, s' ++ x) := by
  rcases hcut : cut c (s ++ g) with ⟨kind, l, r⟩
  have hscan : scanFrom n (c :: (s ++ g)) =
      ⟨kind, n, c :: l⟩ :: scanFrom (n + Text.size (c :: l)) r := scanFrom_of_cut hc hcut
  have happend : l ++ r = s ++ g := by
    have := cut_append c (s ++ g)
    rwa [hcut] at this
  rw [hscan] at h
  cases hrest : scanFrom (n + Text.size (c :: l)) r with
  | nil =>
      -- The token is the last one, so it is the semicolon.
      have hkind : kind = .punct ';' := h ⟨kind, n, c :: l⟩ (by rw [hrest]; rfl)
      obtain rfl : c = ';' := (cut_of_punct (r := s ++ g) (by rw [hcut, hkind])).1
      obtain ⟨rfl, rfl, rfl⟩ := Prod.mk.inj hcut
      exact ⟨_, _, _, rfl, rfl, fun x => rfl⟩
  | cons t ts =>
      obtain ⟨u, hu⟩ : ∃ u, (t :: ts).getLast? = some u :=
        Option.isSome_iff_exists.1 (by simp)
      have hkind : u.kind = .punct ';' := by
        refine h u ?_
        rw [hrest, List.getLast?_cons_cons, hu]
      have hin : ';' ∈ r := by
        refine mem_of_mem_scanFrom (n := n + Text.size (c :: l)) (t := u) ?_ hkind
        rw [hrest]
        exact List.mem_of_getLast? hu
      rcases List.append_eq_append_iff.1 happend with ⟨s', rfl, rfl⟩ | ⟨d, rfl, rfl⟩
      · rcases List.mem_append.1 hin with hin | hin
        · refine ⟨kind, l, s', rfl, rfl, fun x => ?_⟩
          rw [List.append_assoc] at hcut ⊢
          exact cut_of_semicolon hin hcut x
        · have := hg _ hin
          simp [Text.isBlank] at this
      · have := hg ';' (List.mem_append_right d hin)
        simp [Text.isBlank] at this

/-- The tokens of a text whose last token is a semicolon are its tokens whatever goes on behind it. -/
theorem scanFrom_append_of_semicolon (hg : ∀ c ∈ g, Text.isBlank c)
    (h : ∀ t, (scanFrom n (s ++ g)).getLast? = some t → t.kind = .punct ';') (x : Text) :
    scanFrom n (s ++ x) = scanFrom n (s ++ g) ++ scanFrom (n + s.size) x := by
  -- Token by token; the semicolon at the end keeps what is behind it out of the last one.
  induction hlen : s.length using Nat.strongRecOn generalizing n s with
  | ind m ih =>
      subst hlen
      cases s with
      | nil =>
          rw [List.nil_append, List.nil_append, scanFrom_of_forall_blank hg]
          rfl
      | cons c s =>
          rw [List.cons_append] at h ⊢
          by_cases hc : Text.isBlank c
          · rw [scanFrom_of_blank hc] at h
            rw [scanFrom_of_blank hc, List.cons_append, scanFrom_of_blank hc,
              ih s.length (by simp) h rfl, Text.size_cons, Nat.add_assoc]
          · rw [Bool.not_eq_true] at hc
            obtain ⟨kind, l, s', rfl, hcut, hall⟩ := exists_cut_append hc hg h
            rw [scanFrom_of_cut hc hcut] at h
            have hrest : ∀ t, (scanFrom (n + Text.size (c :: l)) (s' ++ g)).getLast? = some t →
                t.kind = .punct ';' := by
              intro t ht
              refine h t ?_
              rw [List.getLast?_cons, ht]
              rfl
            have hlt : s'.length < (c :: (l ++ s')).length := by
              simp only [List.length_cons, List.length_append]
              omega
            rw [scanFrom_of_cut hc (hall x), List.cons_append, scanFrom_of_cut hc hcut,
              ih s'.length hlt hrest rfl, List.cons_append]
            simp only [Text.size_cons, Text.size_append, Nat.add_assoc]

/-- The token with `k` bytes more before it. -/
def shift (k : Nat) (t : Token) : Token :=
  { t with start := k + t.start }

@[simp] theorem kind_shift (k : Nat) (t : Token) : (t.shift k).kind = t.kind := rfl

@[simp] theorem lexeme_shift (k : Nat) (t : Token) : (t.shift k).lexeme = t.lexeme := rfl

@[simp] theorem start_shift (k : Nat) (t : Token) : (t.shift k).start = k + t.start := rfl

@[simp] theorem isPunct_shift (k : Nat) (t : Token) (c : Char) :
    (t.shift k).isPunct c = t.isPunct c := rfl

/-- Bytes before a text move its tokens. -/
theorem scanFrom_add (k n : Nat) (s : Text) : scanFrom (k + n) s = (scanFrom n s).map (shift k) := by
  fun_induction scanFrom n s with
  | case1 => rw [scanFrom.eq_def]; rfl
  | case2 n c r hc ih => rw [scanFrom_of_blank hc, Nat.add_assoc, ih]
  | case3 n c r hc lexeme ih =>
      rw [Bool.not_eq_true] at hc
      have hcut : cut c r = ((cut c r).1, (cut c r).2.1, (cut c r).2.2) := rfl
      rw [scanFrom_of_cut hc hcut, Nat.add_assoc, ih]
      rfl

end Token

/-! ## Brace pairs -/

section Pairs

variable {i n k : Nat} {opened pairs : List (Nat × Nat)} {ts us : List Token}

/-- Tokens whose braces are paired leave nothing open to those behind them. -/
theorem pairBracesFrom_append (h : pairBracesFrom i opened ts = .ok pairs) (us : List Token) :
    pairBracesFrom i opened (ts ++ us) = do
      let later ← pairBracesFrom (i + ts.length) [] us
      return pairs ++ later := by
  -- At the end of the tokens the stack is empty, or their pairing would have failed.
  induction ts generalizing i opened pairs with
  | nil =>
      cases opened with
      | nil =>
          obtain rfl : [] = pairs := by simpa [pairBracesFrom] using h
          simp
      | cons q outer => simp [pairBracesFrom] at h
  | cons t ts ih =>
      have hlen : i + (t :: ts).length = i + 1 + ts.length := by
        simp only [List.length_cons]
        omega
      rw [List.cons_append, hlen]
      by_cases hl : t.isPunct '{'
      · rw [pairBracesFrom_cons_open hl] at h ⊢
        exact ih h
      by_cases hr : t.isPunct '}'
      · cases opened with
        | nil => simp [pairBracesFrom_nil_close hr] at h
        | cons q outer =>
          rw [pairBracesFrom_cons_close hr, bind_eq_ok] at h
          obtain ⟨pairs', hrest, h⟩ := h
          obtain rfl := Except.ok.inj h
          rw [pairBracesFrom_cons_close hr, ih hrest]
          simp
      · rw [pairBracesFrom_cons_other hl hr] at h ⊢
        exact ih h

/-- Tokens before others move the pairs of these. -/
theorem pairBracesFrom_shift (h : pairBracesFrom i opened ts = .ok pairs) (n k : Nat) :
    pairBracesFrom (n + i) (opened.map fun q => (n + q.1, k + q.2)) (ts.map (Token.shift k)) =
      .ok (pairs.map fun p => (n + p.1, n + p.2)) := by
  induction ts generalizing i opened pairs with
  | nil =>
      cases opened with
      | nil =>
          obtain rfl : [] = pairs := by simpa [pairBracesFrom] using h
          rfl
      | cons q outer => simp [pairBracesFrom] at h
  | cons t ts ih =>
      rw [List.map_cons]
      by_cases hl : t.isPunct '{'
      · rw [pairBracesFrom_cons_open hl] at h
        rw [pairBracesFrom_cons_open (show (t.shift k).isPunct '{' from hl)]
        exact ih h
      by_cases hr : t.isPunct '}'
      · cases opened with
        | nil => simp [pairBracesFrom_nil_close hr] at h
        | cons q outer =>
          rw [pairBracesFrom_cons_close hr, bind_eq_ok] at h
          obtain ⟨pairs', hrest, h⟩ := h
          obtain rfl := Except.ok.inj h
          rw [List.map_cons, pairBracesFrom_cons_close (show (t.shift k).isPunct '}' from hr),
            Nat.add_assoc, ih hrest]
          rfl
      · rw [pairBracesFrom_cons_other hl hr] at h
        rw [pairBracesFrom_cons_other (show ¬ (t.shift k).isPunct '{' from hl)
          (show ¬ (t.shift k).isPunct '}' from hr), Nat.add_assoc]
        exact ih h

end Pairs

end HeaderReflection
