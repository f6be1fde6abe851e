/-
  HeaderReflection.Proofs.RejoinedTokens

  Tokens put together again with other blanks between them. Every token is
  recognized from its own characters: a blank behind it ends it where it has
  ended before, so the new text has the same tokens, and the same braces are
  pairs. Only a literal that is never closed would go on over a blank, but it is
  the last token of its text, and nothing is put behind that.
-/
import HeaderReflection.Proofs.SpacedTokens
import HeaderReflection.Proofs.TokenLayout
import HeaderReflection.Proofs.TokenShapes

namespace HeaderReflection

/-- What is put between two tokens: blanks of any kind, and at least one. -/
structure Gap where
  text : Text
  ne_nil : text ≠ []
  isBlank : ∀ c ∈ text, Text.isBlank c

/-- The words with gaps between them, of which the first one stands behind the first word. -/
def Text.spread (gap : Nat → Gap) : Nat → List Text → Text
  | _, [] => []
  | _, [w] => w
  | i, w :: v :: ws => w ++ ((gap i).text ++ spread gap (i + 1) (v :: ws))

variable {source r s x : Text} {c d quote : Char} {gap : Nat → Gap} {n i : Nat}

namespace Token

/-! ## One token

What stands behind the token is nothing or begins with a blank. -/

theorem isWord_of_isAsciiAlphanumeric (h : Text.isAsciiAlphanumeric c) : Text.isWord c := by
  apply isWord_of_isWordChar
  rw [isWordChar, show c.isAlphanum = true from h, Bool.true_or]

theorem identTail_of_blank (numeric : Bool) (hx : ∀ c, x.head? = some c → Text.isBlank c) :
    identTail numeric x = ([], x) := by
  cases x with
  | nil => rfl
  | cons d x =>
      have hd : Text.isBlank d := hx d rfl
      have hword : Text.isWord d = false := by
        by_contra hword
        rw [Text.isBlank_of_isWord (by simpa using hword)] at hd
        simp at hd
      have hquote : d ≠ '\'' := by
        rintro rfl
        revert hd
        decide
      rw [identTail_cons, if_neg]
      simp [hword, hquote]

/-- The rest of a word ends where it has ended. -/
theorem identTail_rejoin (numeric : Bool) (s : Text)
    (hx : ∀ c, x.head? = some c → Text.isBlank c) :
    identTail numeric ((identTail numeric s).1 ++ x) = ((identTail numeric s).1, x) := by
  induction s with
  | nil => exact identTail_of_blank numeric hx
  | cons c s ih =>
      rw [identTail_cons]
      split
      · next hgoes =>
        -- What a quote in a number looks at is the next character of the number.
        have hnext : s.head?.any Text.isAsciiAlphanumeric →
            ((identTail numeric s).1 ++ x).head?.any Text.isAsciiAlphanumeric := by
          intro hd
          cases s with
          | nil => simp at hd
          | cons d s =>
              have hword : Text.isWord d := isWord_of_isAsciiAlphanumeric (by simpa using hd)
              rw [identTail_cons, if_pos (by simp [hword])]
              simpa using hd
        have hgoes' : Text.isWord c || (numeric && c == '\'' &&
            ((identTail numeric s).1 ++ x).head?.any Text.isAsciiAlphanumeric) := by
          simp only [Bool.or_eq_true, Bool.and_eq_true] at hgoes ⊢
          exact hgoes.imp_right (And.imp_right hnext)
        show identTail numeric (c :: ((identTail numeric s).1 ++ x)) = _
        rw [identTail_cons, if_pos hgoes', ih]
      · exact identTail_of_blank numeric hx

/-- The rest of a literal ends where it has ended, unless it was never closed and something is put
behind it. -/
theorem literalTail_rejoin (escaped : Bool) (s : Text)
    (hx : x = [] ∨ (literalTail quote escaped s).2 ≠ []) :
    literalTail quote escaped ((literalTail quote escaped s).1 ++ x) =
      ((literalTail quote escaped s).1, x) := by
  induction s generalizing escaped with
  | nil =>
      obtain rfl : x = [] := hx.resolve_right fun h => h rfl
      rfl
  | cons c s ih =>
      rw [literalTail] at hx ⊢
      split
      · next hclose =>
        show literalTail quote escaped (c :: x) = ([c], x)
        rw [literalTail, if_pos hclose]
      · next hclose =>
        rw [if_neg hclose] at hx
        show literalTail quote escaped (c :: ((literalTail quote _ s).1 ++ x)) = _
        rw [literalTail, if_neg hclose, ih _ hx]

/-- A token is cut off again. -/
theorem cut_rejoin (c : Char) (r : Text) (hx : ∀ c, x.head? = some c → Text.isBlank c)
    (hlast : x = [] ∨ (cut c r).2.2 ≠ []) :
    cut c ((cut c r).2.1 ++ x) = ((cut c r).1, (cut c r).2.1, x) := by
  unfold cut at hlast ⊢
  -- One case for each kind of token: a word, a literal, two colons and any other character.
  by_cases hword : Text.isWord c
  · simp only [if_pos hword]
    rw [identTail_rejoin _ _ hx]
  simp only [if_neg hword] at hlast ⊢
  by_cases hquote : c == '"' || c == '\''
  · simp only [if_pos hquote] at hlast ⊢
    rw [literalTail_rejoin _ _ hlast]
  simp only [if_neg hquote] at hlast ⊢
  by_cases hcolon : c == ':' && r.head? == some ':'
  · simp only [Bool.and_eq_true, beq_iff_eq] at hcolon
    obtain ⟨rfl, hsecond⟩ := hcolon
    obtain ⟨r, rfl⟩ := List.head?_eq_some_iff.1 hsecond
    rfl
  · simp only [if_neg hcolon, List.nil_append]
    rw [if_neg]
    simp only [Bool.and_eq_true, beq_iff_eq, not_and]
    intro _ hhead
    have hblank := hx ':' hhead
    revert hblank
    decide

/-! ## All tokens -/

theorem head?_gap (g : Gap) (x : Text) (h : (g.text ++ x).head? = some c) : Text.isBlank c := by
  rw [List.head?_append_of_ne_nil _ g.ne_nil] at h
  exact g.isBlank c (List.mem_of_head? h)

/-- The words of a scan are scanned again, with any gaps between them. -/
theorem map_shape_scanFrom_spread (gap : Nat → Gap) (n n' i : Nat) (s : Text) :
    (scanFrom n' (Text.spread gap i ((scanFrom n s).map (·.lexeme)))).map shape =
      (scanFrom n s).map shape := by
  fun_induction scanFrom n s generalizing n' i with
  | case1 n =>
      show (scanFrom n' []).map shape = []
      rw [scanFrom.eq_def]
      rfl
  | case2 n c r hblank ih => exact ih n' i
  | case3 n c r hblank lexeme ih =>
      rw [Bool.not_eq_true] at hblank
      -- Behind the word stands nothing or a gap, and a gap only if a token follows.
      obtain ⟨x, htext, hx, hlast, hrest⟩ : ∃ x,
          Text.spread gap i (lexeme :: (scanFrom (n + Text.size lexeme) (cut c r).2.2).map (·.lexeme)) =
            lexeme ++ x ∧
          (∀ d, x.head? = some d → Text.isBlank d) ∧ (x = [] ∨ (cut c r).2.2 ≠ []) ∧
          ∀ m, (scanFrom m x).map shape =
            (scanFrom (n + Text.size lexeme) (cut c r).2.2).map shape := by
        cases hts : scanFrom (n + Text.size lexeme) (cut c r).2.2 with
        | nil =>
            refine ⟨[], by simp [Text.spread], by simp, .inl rfl, fun m => ?_⟩
            rw [scanFrom.eq_def]
        | cons t ts =>
            refine ⟨_, rfl, fun d => head?_gap (gap i) _, .inr fun hnil => ?_, fun m => ?_⟩
            · rw [hnil, scanFrom.eq_def] at hts
              cases hts
            · rw [scanFrom_blanks (gap i).isBlank, ← List.map_cons, ← hts]
              exact ih _ _
      have hcut : cut c ((cut c r).2.1 ++ x) = ((cut c r).1, (cut c r).2.1, x) :=
        cut_rejoin c r hx hlast
      rw [List.map_cons, htext, List.map_cons]
      show (scanFrom n' (c :: ((cut c r).2.1 ++ x))).map shape = _
      rw [scanFrom_of_cut hblank hcut, List.map_cons, hrest]
      rfl

end Token

/-! ## Whole texts -/

namespace TokenStream

variable {s : TokenStream}

/-- The text in which the tokens stand one behind the other with the gaps between them. -/
def spread (s : TokenStream) (gap : Nat → Gap) : Text :=
  Text.spread gap 0 (s.tokens.toList.map (·.lexeme))

/-- The text that is put together from the tokens of a text with any blanks between them has the same
tokens, of the same kinds and with the same characters, and each brace is closed by the same one. -/
theorem tokenize_spread (h : tokenize source = .ok s) (gap : Nat → Gap) :
    ∃ s', tokenize (s.spread gap) = .ok s' ∧ s'.size = s.size ∧ ∀ i,
      (s'.token? i).map (·.kind) = (s.token? i).map (·.kind) ∧ s'.text i = s.text i ∧
        s'.closer i = s.closer i := by
  have hshape : (Token.scan (s.spread gap)).map Token.shape =
      (Token.scan source).map Token.shape := by
    rw [spread, toList_of_tokenize h]
    exact Token.map_shape_scanFrom_spread gap 0 0 0 source
  have hface : (Token.scan source).map Token.face = (Token.scan (s.spread gap)).map Token.face := by
    have hforget := congrArg (List.map fun p : Shape =>
      (p.1, if p.1 = .literal then none else some p.2)) hshape
    rw [List.map_map, List.map_map] at hforget
    exact hforget.symm
  -- The braces are paired by the kinds of the tokens, which are the same.
  have hagree := agree_tokenize hface
  rw [h] at hagree
  obtain ⟨s', hs', halike⟩ := hagree.exists_ok
  refine ⟨s', hs', halike.size.symm, fun i => ⟨(halike.kind i).symm, ?_, (halike.closer i).symm⟩⟩
  -- What a literal says is not a part of its face, but of its shape.
  apply text_congr
  rw [token?_of_tokenize hs', token?_of_tokenize h, ← List.getElem?_map, ← List.getElem?_map, hshape]

/-- A space of three bytes, or a tab and a line feed. -/
def mixedGap (i : Nat) : Gap where
  text := if i % 2 = 0 then ['\u3000'] else ['\t', '\n']
  ne_nil := by
    split
    · simp
    · simp
  isBlank := by
    intro c hc
    split at hc
    · obtain rfl : c = '\u3000' := by simpa using hc
      rfl
    · have hc : c = '\t' ∨ c = '\n' := by simpa using hc
      rcases hc with rfl | rfl
      · rfl
      · rfl

/-- A number with a quote in it right before a colon, a literal with a blank, and one that is never
closed. -/
theorem tokenize_spread_mixed :
    ∃ s s', tokenize "a::b\x7b1'0:'x y'\x7d\"z \\".toList = .ok s ∧ s.size = 9 ∧
      s.closer 3 = some 7 ∧
      s.spread mixedGap = ("a\u3000::\t\nb\u3000\x7b\t\n1'0\u3000:\t\n'x y'" ++
        "\u3000\x7d\t\n\"z \\").toList ∧
      tokenize (s.spread mixedGap) = .ok s' ∧ s'.size = 9 ∧ s'.closer 3 = some 7 ∧
      ∀ i, s'.text i = s.text i := by
  have hrun : (tokenize "a::b\x7b1'0:'x y'\x7d\"z \\".toList >>= fun s =>
      Except.ok (s.size, s.closer 3, s.spread mixedGap)) =
        .ok (9, some 7, ("a\u3000::\t\nb\u3000\x7b\t\n1'0\u3000:\t\n'x y'" ++
          "\u3000\x7d\t\n\"z \\").toList) := by
    decide +kernel
  obtain ⟨s, hs, hfacts⟩ := bind_eq_ok.1 hrun
  simp only [Except.ok.injEq, Prod.mk.injEq] at hfacts
  obtain ⟨hsize, hclose, htext⟩ := hfacts
  obtain ⟨s', hs', hsize', hsame⟩ := tokenize_spread hs mixedGap
  refine ⟨s, s', hs, hsize, hclose, htext, hs', by rw [hsize', hsize], ?_, fun i => (hsame i).2.1⟩
  rw [(hsame 3).2.2, hclose]

end TokenStream

end HeaderReflection
