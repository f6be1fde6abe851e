/-
  HeaderReflection.Proofs.TokenLayout

  A text and its tokens. The tokens lie one behind the other with only blanks
  between them, so nothing of the text is lost but blanks outside of tokens. The
  text of a token and the text between two of them are cut where characters
  begin, whatever the indices.
-/
import HeaderReflection.Proofs.ErrorOffsets
import HeaderReflection.Proofs.Slices

namespace HeaderReflection

variable {source : Text} {s : TokenStream} {t : Token} {ts : List Token} {kind : TokenKind}
variable {r before after : Text} {c d : Char} {start i j m n : Nat}

/-! ## Cuts between characters -/

namespace Text

theorem eq_nil_of_size (h : size r = 0) : r = [] := by
  cases r with
  | nil => rfl
  | cons c r =>
      have := size_pos_of_cons c r
      omega

/-- Of two cuts the later one leaves a part between them. -/
theorem exists_between (hm : r.HasAt m []) (hn : r.HasAt n []) (hmn : m ≤ n) :
    ∃ before part after, r = before ++ (part ++ after) ∧ before.size = m ∧ m + part.size = n := by
  obtain ⟨before, after, rfl, rfl⟩ := hm
  obtain ⟨before', after', h, rfl⟩ := hn
  rw [List.nil_append, List.nil_append, List.append_eq_append_iff] at h
  rcases h with ⟨part, rfl, rfl⟩ | ⟨part, rfl, rfl⟩
  · exact ⟨before, part, after', rfl, rfl, (size_append _ _).symm⟩
  · -- The cuts are one and the same.
    rw [size_append] at hmn
    obtain rfl : part = [] := eq_nil_of_size (by omega)
    exact ⟨before', [], after, by simp, by simp, by simp⟩

/-- Between two cuts a slice holds all bytes, and none if the second one is not behind the first. -/
theorem hasAt_slice (hm : r.HasAt m []) (hn : r.HasAt n []) :
    r.HasAt m (r.slice m n) ∧ size (r.slice m n) = n - m := by
  by_cases hmn : m ≤ n
  · obtain ⟨before, part, after, rfl, rfl, rfl⟩ := exists_between hm hn hmn
    rw [slice_append, Nat.add_sub_cancel_left]
    exact ⟨⟨before, after, rfl, rfl⟩, rfl⟩
  · have hzero : n - m = 0 := by omega
    rw [slice, hzero, uptoByte]
    exact ⟨hm, rfl⟩

/-! ## Blanks -/

/-- The code points of the blanks. -/
def blankCodes : List Nat :=
  [9, 10, 11, 12, 13, 0x20, 0x85, 0xa0, 0x1680, 0x2000, 0x2001, 0x2002, 0x2003, 0x2004, 0x2005,
    0x2006, 0x2007, 0x2008, 0x2009, 0x200a, 0x2028, 0x2029, 0x202f, 0x205f, 0x3000]

theorem toNat_mem_blankCodes (h : isBlank c) : c.toNat ∈ blankCodes := by
  simp only [isBlank, Bool.or_eq_true, Bool.and_eq_true, decide_eq_true_eq, beq_iff_eq] at h
  simp only [blankCodes, List.mem_cons, List.not_mem_nil, or_false]
  omega

/-- A word character is no blank. -/
theorem isBlank_of_isWord (h : isWord c) : isBlank c = false := by
  have hcodes : ∀ n ∈ blankCodes, isWord (Char.ofNat n) = false := by decide +kernel
  by_contra hblank
  have hword := hcodes _ (toNat_mem_blankCodes (by simpa using hblank))
  rw [Char.ofNat_toNat, h] at hword
  simp at hword

end Text

namespace Token

theorem mem_identTail {numeric : Bool} (h : d ∈ (identTail numeric r).1) :
    Text.isWord d ∨ d = '\'' := by
  induction r with
  | nil => simp [identTail] at h
  | cons c r ih =>
      rw [identTail] at h
      split at h
      · next hc =>
        rcases List.mem_cons.1 h with rfl | h
        · simp only [Bool.or_eq_true, Bool.and_eq_true, beq_iff_eq] at hc
          exact hc.imp_right fun hc => hc.1.2
        · exact ih h
      · simp at h

/-- Only a literal can hold blanks. -/
theorem isBlank_of_mem_cut (hc : Text.isBlank c = false) (hkind : (cut c r).1 ≠ .literal)
    (hd : d ∈ c :: (cut c r).2.1) : Text.isBlank d = false := by
  rcases List.mem_cons.1 hd with rfl | hd
  · exact hc
  unfold cut at hkind hd
  -- One case for each kind of token: a word, a literal, two colons and any other character.
  split at hkind
  · next hword =>
    rw [if_pos hword] at hd
    rcases mem_identTail hd with hd | rfl
    · exact Text.isBlank_of_isWord hd
    · decide
  next hword =>
  rw [if_neg hword] at hd
  split at hkind
  · exact absurd rfl hkind
  next hquote =>
  rw [if_neg hquote] at hd
  split at hkind
  · next hcolon =>
    rw [if_pos hcolon] at hd
    cases r with
    | nil => simp at hd
    | cons e r =>
        obtain rfl : d = e := by simpa using hd
        simp only [Bool.and_eq_true, beq_iff_eq, List.head?_cons, Option.some.injEq] at hcolon
        rw [hcolon.2]
        decide
  · next hcolon =>
    rw [if_neg hcolon] at hd
    simp at hd

theorem isBlank_of_mem_lexeme (ht : t ∈ scanFrom start r) (hkind : t.kind ≠ .literal)
    (hd : d ∈ t.lexeme) : Text.isBlank d = false := by
  fun_induction scanFrom start r with
  | case1 => simp at ht
  | case2 start c r _ ih => exact ih ht
  | case3 start c r hc lexeme ih =>
      rcases List.mem_cons.1 ht with rfl | ht
      · exact isBlank_of_mem_cut (by simpa using hc) hkind hd
      · exact ih ht

/-! ## Gaps and tokens in turns -/

/-- From byte `start` on the text is blanks and the tokens in turns. -/
inductive LaidOut : Nat → List Token → Text → Prop
  | last {start : Nat} {gap : Text} (hgap : ∀ c ∈ gap, Text.isBlank c) : LaidOut start [] gap
  | token {start : Nat} (gap : Text) {rest : Text} {t : Token} {ts : List Token}
      (hgap : ∀ c ∈ gap, Text.isBlank c) (hstart : t.start = start + gap.size)
      (h : LaidOut t.stop ts rest) : LaidOut start (t :: ts) (gap ++ (t.lexeme ++ rest))

namespace LaidOut

/-- A blank goes to the gap that follows it. -/
theorem blank (hc : Text.isBlank c) (h : LaidOut (start + c.utf8Size) ts r) :
    LaidOut start ts (c :: r) := by
  cases h with
  | last hgap => exact last (List.forall_mem_cons.2 ⟨hc, hgap⟩)
  | @token _ gap rest t ts hgap hstart h =>
      refine token (c :: gap) (List.forall_mem_cons.2 ⟨hc, hgap⟩) ?_ h
      rw [hstart, Text.size_cons, Nat.add_assoc]

theorem scanFrom (start : Nat) (r : Text) : LaidOut start (Token.scanFrom start r) r := by
  fun_induction Token.scanFrom start r with
  | case1 start => exact last (by simp)
  | case2 start c r hc ih => exact ih.blank hc
  | case3 start c r hc lexeme ih =>
      have hsplit : c :: r = [] ++ (lexeme ++ (cut c r).2.2) := by
        rw [List.nil_append, List.cons_append, cut_append]
      rw [hsplit]
      exact token [] (by simp) rfl ih

/-- What is in no token is blank. -/
theorem isBlank_of_hasAt (h : LaidOut start ts r) (hc : r.HasAt n [c])
    (hts : ∀ t ∈ ts, start + n < t.start ∨ t.stop ≤ start + n) : Text.isBlank c := by
  induction h generalizing n with
  | last hgap =>
      obtain ⟨before, after, rfl, -⟩ := hc
      exact hgap c (by simp)
  | @token start gap rest t ts hgap hstart h ih =>
      rw [List.forall_mem_cons] at hts
      -- The character is one of the gap, of the token or of what follows.
      rcases Text.hasAt_append.1 hc with ⟨before, after, rfl, -⟩ | ⟨m, rfl, hm⟩
      · exact hgap c (by simp)
      rcases Text.hasAt_append.1 hm with ⟨before, after, hlexeme, rfl⟩ | ⟨k, rfl, hk⟩
      · have hstop : t.stop = t.start + (before.size + (c.utf8Size + after.size)) := by
          rw [stop, hlexeme, Text.size_append]
          rfl
        have hpos := c.utf8Size_pos
        have := hts.1
        omega
      · have hnext : t.stop + k = start + (gap.size + (t.lexeme.size + k)) := by
          rw [stop, hstart]
          omega
        refine ih hk ?_
        rw [hnext]
        exact hts.2

end LaidOut

end Token

/-! ## Streams -/

namespace TokenStream

theorem toList_of_tokenize (h : tokenize source = .ok s) : s.tokens.toList = Token.scan source := by
  obtain ⟨pairs, -, rfl⟩ := tokenize_eq_ok.1 h
  rfl

theorem hasAt_of_mem_scan (ht : t ∈ Token.scan source) : source.HasAt t.start t.lexeme := by
  obtain ⟨before, after, hsplit, hstart⟩ := Token.exists_append_of_mem_scanFrom ht
  exact ⟨before, after, hsplit, by rw [hstart, Nat.zero_add]⟩

/-- Behind the last token the text of a token is the empty one at the end. -/
theorem hasAt_text (h : tokenize source = .ok s) (i : Nat) : source.HasAt (s.offset i) (s.text i) := by
  rw [offset, text, token?_of_tokenize h, source_of_tokenize h]
  cases ht : (Token.scan source)[i]? with
  | none => exact ⟨source, [], by simp, rfl⟩
  | some t => exact hasAt_of_mem_scan (List.mem_of_getElem? ht)

theorem hasAt_offset (h : tokenize source = .ok s) (i : Nat) : source.HasAt (s.offset i) [] := by
  obtain ⟨before, after, hsplit, hstart⟩ := hasAt_text h i
  exact ⟨before, s.text i ++ after, hsplit, hstart⟩

theorem hasAt_textBetween (h : tokenize source = .ok s) (i j : Nat) :
    source.HasAt (s.offset i) (s.textBetween i j) ∧
      (s.textBetween i j).size = s.offset j - s.offset i := by
  rw [textBetween, source_of_tokenize h]
  exact Text.hasAt_slice (hasAt_offset h i) (hasAt_offset h j)

end TokenStream

/-- The tokens of a text follow one another inside of it, with blanks between them and none in those that
are no literals; and whatever the indices, the text of a token and the text between two of them are parts
of the text with all their bytes. -/
theorem tokenize_lossless (h : tokenize source = .ok s) :
    (∀ t ∈ s.tokens.toList, Token.Within 0 source.size t ∧ source.HasAt t.start t.lexeme) ∧
    s.tokens.toList.Pairwise (fun t u => t.start < u.start ∧ t.stop ≤ u.start) ∧
    (∀ n c, source.HasAt n [c] → (∀ t ∈ s.tokens.toList, n < t.start ∨ t.stop ≤ n) →
      Text.isBlank c) ∧
    (∀ t ∈ s.tokens.toList, t.kind ≠ .literal → ∀ c ∈ t.lexeme, Text.isBlank c = false) ∧
    Token.LaidOut 0 s.tokens.toList source ∧
    (∀ i, source.HasAt (s.offset i) (s.text i)) ∧
    ∀ i j, source.HasAt (s.offset i) (s.textBetween i j) ∧
      (s.textBetween i j).size = s.offset j - s.offset i ∧
      (s.offset j ≤ s.offset i → s.textBetween i j = []) := by
  have hlaid : Token.LaidOut 0 (Token.scan source) source := Token.LaidOut.scanFrom 0 source
  have hwithin : ∀ t ∈ Token.scan source, Token.Within 0 source.size t := fun t ht => by
    simpa using Token.within_of_mem_scanFrom ht
  rw [TokenStream.toList_of_tokenize h]
  refine ⟨fun t ht => ⟨hwithin t ht, TokenStream.hasAt_of_mem_scan ht⟩, ?_, ?_, ?_, hlaid,
    TokenStream.hasAt_text h, fun i j => ?_⟩
  · refine (Token.pairwise_scanFrom 0 source).imp_of_mem fun ht hu hle => ⟨?_, hle⟩
    exact Nat.lt_of_lt_of_le (hwithin _ ht).start_lt hle
  · intro n c hc hts
    exact hlaid.isBlank_of_hasAt hc (by simpa using hts)
  · intro t ht hkind c hc
    exact Token.isBlank_of_mem_lexeme ht hkind hc
  · obtain ⟨hat, hsize⟩ := TokenStream.hasAt_textBetween h i j
    refine ⟨hat, hsize, fun hle => Text.eq_nil_of_size ?_⟩
    rw [hsize]
    omega

/-- Tokens of each kind with a character of two bytes and a literal that holds a blank; the last index is
far past the end. -/
theorem tokenize_lossless_literal :
    ∃ s, tokenize "\u00e9::b \"c d\"\t\x7b 1'0\x7d".toList = .ok s ∧
      (s.offset 3, s.offset 4) = (6, 12) ∧
      Token.LaidOut 0 s.tokens.toList "\u00e9::b \"c d\"\t\x7b 1'0\x7d".toList ∧
      (s.textBetween 3 99).size = s.offset 99 - 6 ∧ s.textBetween 4 3 = [] := by
  have hrun : (tokenize "\u00e9::b \"c d\"\t\x7b 1'0\x7d".toList >>=
      fun s => Except.ok (s.offset 3, s.offset 4)) = .ok (6, 12) := by
    decide +kernel
  obtain ⟨s, hs, hoffsets⟩ := bind_eq_ok.1 hrun
  injection hoffsets with hoffsets
  obtain ⟨hthree, hfour⟩ := Prod.mk.inj hoffsets
  obtain ⟨-, -, -, -, hlaid, -, hslices⟩ := tokenize_lossless hs
  refine ⟨s, hs, hoffsets, hlaid, ?_, (hslices 4 3).2.2 (by omega)⟩
  rw [(hslices 3 99).2.1, hthree]

end HeaderReflection
