/-
  HeaderReflection.Proofs.Offsets

  Where tokens stand. The tokens of a text follow one another without overlap
  inside the text, so the order of their indices is the order of their bytes.
-/
import HeaderReflection.Proofs.Stream

namespace HeaderReflection

theorem Text.size_pos_of_cons (c : Char) (r : Text) : 0 < Text.size (c :: r) := by
  have := c.utf8Size_pos
  simp only [Text.size_cons]
  omega

namespace Token

/-! ## The tokens of a text -/

/-- The token lies in the bytes from `start` to `stop`, and is not empty. -/
structure Within (start stop : Nat) (t : Token) : Prop where
  start_le : start ≤ t.start
  stop_le : t.stop ≤ stop
  start_lt : t.start < t.stop

theorem Within.mono {start start' stop stop' : Nat} {t : Token} (h : Within start stop t)
    (hstart : start' ≤ start) (hstop : stop ≤ stop') : Within start' stop' t :=
  ⟨by have := h.start_le; omega, by have := h.stop_le; omega, h.start_lt⟩

/-- A scan gives tokens of the bytes it goes through. -/
theorem within_of_mem_scanFrom {start : Nat} {s : Text} {t : Token} (h : t ∈ scanFrom start s) :
    Within start (start + s.size) t := by
  fun_induction scanFrom start s with
  | case1 => simp at h
  | case2 start c r _ ih =>
      exact (ih h).mono (by omega) (by simp only [Text.size_cons]; omega)
  | case3 start c r _ lexeme ih =>
      have hcut : Text.size lexeme + Text.size (cut c r).2.2 = Text.size (c :: r) := by
        rw [← Text.size_append, List.cons_append, cut_append]
      have hpos : 0 < Text.size lexeme := Text.size_pos_of_cons c _
      rcases List.mem_cons.1 h with rfl | h
      · exact ⟨Nat.le_refl _, by simp only [stop]; omega, by simp only [stop]; omega⟩
      · exact (ih h).mono (by omega) (by omega)

/-- A token's characters stand in the text at its start. -/
theorem exists_append_of_mem_scanFrom {start : Nat} {s : Text} {t : Token}
    (h : t ∈ scanFrom start s) :
    ∃ before after, s = before ++ (t.lexeme ++ after) ∧ t.start = start + before.size := by
  fun_induction scanFrom start s with
  | case1 => simp at h
  | case2 start c r _ ih =>
      obtain ⟨before, after, rfl, hstart⟩ := ih h
      exact ⟨c :: before, after, rfl, by rw [hstart, Text.size_cons, Nat.add_assoc]⟩
  | case3 start c r _ lexeme ih =>
      rcases List.mem_cons.1 h with rfl | h
      · refine ⟨[], (cut c r).2.2, ?_, rfl⟩
        simp only [lexeme, List.nil_append, List.cons_append, cut_append]
      · obtain ⟨before, after, hrest, hstart⟩ := ih h
        refine ⟨lexeme ++ before, after, ?_, by rw [hstart, Text.size_append, Nat.add_assoc]⟩
        rw [List.append_assoc, ← hrest, List.cons_append, cut_append]

/-- Only the character itself is cut as a punctuation. -/
theorem cut_of_punct {c d : Char} {r : Text} (h : (cut c r).1 = .punct d) :
    c = d ∧ (cut c r).2.1 = [] := by
  unfold cut at h ⊢
  split at h
  · simp at h
  split at h
  · simp at h
  split at h
  · simp at h
  · next hword hquote hcolon =>
    rw [if_neg hword, if_neg hquote, if_neg hcolon]
    simpa using h

/-- A punctuation is one character. -/
theorem lexeme_of_punct {start : Nat} {s : Text} {t : Token} {c : Char} (h : t ∈ scanFrom start s)
    (hkind : t.kind = .punct c) : t.lexeme = [c] := by
  fun_induction scanFrom start s with
  | case1 => simp at h
  | case2 start d r _ ih => exact ih h
  | case3 start d r _ lexeme ih =>
      rcases List.mem_cons.1 h with rfl | h
      · obtain ⟨rfl, hnil⟩ := cut_of_punct hkind
        simp only [lexeme, hnil]
      · exact ih h

/-- Only two colons are cut as a separator. -/
theorem cut_of_separator {c : Char} {r : Text} (h : (cut c r).1 = .separator) :
    c :: (cut c r).2.1 = "::".toList := by
  unfold cut at h ⊢
  split at h
  · simp at h
  split at h
  · simp at h
  split at h
  · next hword hquote hcolon =>
    rw [if_neg hword, if_neg hquote, if_pos hcolon]
    simp only [Bool.and_eq_true, beq_iff_eq] at hcolon
    obtain ⟨rfl, hhead⟩ := hcolon
    obtain ⟨r, rfl⟩ := List.head?_eq_some_iff.1 hhead
    rfl
  · simp at h

theorem lexeme_of_separator {start : Nat} {s : Text} {t : Token} (h : t ∈ scanFrom start s)
    (hkind : t.kind = .separator) : t.lexeme = "::".toList := by
  fun_induction scanFrom start s with
  | case1 => simp at h
  | case2 start d r _ ih => exact ih h
  | case3 start d r _ lexeme ih =>
      rcases List.mem_cons.1 h with rfl | h
      · exact cut_of_separator hkind
      · exact ih h

/-- Each token of a scan ends before the later ones start. -/
theorem pairwise_scanFrom (start : Nat) (s : Text) :
    (scanFrom start s).Pairwise fun t u => t.stop ≤ u.start := by
  fun_induction scanFrom start s with
  | case1 => exact List.Pairwise.nil
  | case2 start c r _ ih => exact ih
  | case3 start c r _ lexeme ih =>
      exact List.Pairwise.cons (fun u hu => (within_of_mem_scanFrom hu).start_le) ih

end Token

namespace TokenStream

variable {source : Text} {s : TokenStream} {i j : Nat}

/-! ## Streams of texts -/

theorem tokenize_eq_ok :
    tokenize source = .ok s ↔ ∃ pairs, pairBraces (Token.scan source) = .ok pairs ∧
      s = ⟨source, (Token.scan source).toArray, pairs⟩ := by
  cases h : pairBraces (Token.scan source) with
  | error e => simp [tokenize, h, bind, Except.bind]
  | ok pairs => simp [tokenize, h, bind, Except.bind, pure, Except.pure, eq_comm]

theorem source_of_tokenize (h : tokenize source = .ok s) : s.source = source := by
  obtain ⟨pairs, -, rfl⟩ := tokenize_eq_ok.1 h
  rfl

theorem token?_of_tokenize (h : tokenize source = .ok s) : s.token? i = (Token.scan source)[i]? := by
  obtain ⟨pairs, -, rfl⟩ := tokenize_eq_ok.1 h
  simp [token?]

/-- A token is inside its text. -/
theorem within_of_token? (h : tokenize source = .ok s) {t : Token} (ht : s.token? i = some t) :
    Token.Within 0 source.size t := by
  rw [token?_of_tokenize h] at ht
  simpa using Token.within_of_mem_scanFrom (List.mem_of_getElem? ht)

theorem offset_of_token? {t : Token} (ht : s.token? i = some t) : s.offset i = t.start := by
  simp [offset, ht]

/-- Later tokens start later. -/
theorem offset_lt (h : tokenize source = .ok s) (hij : i < j) (hj : j < s.size) :
    s.offset i < s.offset j := by
  obtain ⟨t, ht⟩ : ∃ t, s.token? i = some t := ⟨_, Array.getElem?_eq_getElem (Nat.lt_trans hij hj)⟩
  obtain ⟨u, hu⟩ : ∃ u, s.token? j = some u := ⟨_, Array.getElem?_eq_getElem hj⟩
  have hwithin := within_of_token? h ht
  rw [offset_of_token? ht, offset_of_token? hu]
  rw [token?_of_tokenize h] at ht hu
  obtain ⟨hi, rfl⟩ := List.getElem?_eq_some_iff.1 ht
  obtain ⟨hj, rfl⟩ := List.getElem?_eq_some_iff.1 hu
  have hle := List.pairwise_iff_getElem.1 (Token.pairwise_scanFrom 0 source) i j hi hj hij
  exact Nat.lt_of_lt_of_le hwithin.start_lt hle

theorem offset_le (h : tokenize source = .ok s) (hij : i ≤ j) (hj : j < s.size) :
    s.offset i ≤ s.offset j := by
  rcases Nat.eq_or_lt_of_le hij with rfl | hij
  · exact Nat.le_refl _
  · exact Nat.le_of_lt (offset_lt h hij hj)

/-- The order of the bytes is the order of the indices. -/
theorem offset_le_iff (h : tokenize source = .ok s) (hi : i < s.size) (hj : j < s.size) :
    s.offset i ≤ s.offset j ↔ i ≤ j := by
  constructor
  · intro hle
    by_contra hlt
    have := offset_lt h (i := j) (j := i) (by omega) hi
    omega
  · intro hij
    exact offset_le h hij hj

end TokenStream

end HeaderReflection
