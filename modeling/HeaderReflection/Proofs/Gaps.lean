/-
  HeaderReflection.Proofs.Gaps

  What stands between two tokens. The text from one token up to another is the
  token and the gap behind it and so on; the characters of a gap are in no
  token, so they are blanks, and what is trimmed does not depend on them.
-/
import HeaderReflection.Proofs.TokenLayout

namespace HeaderReflection

/-! ## Slices in a row -/

namespace Text

variable {r gap s : Text} {i j k : Nat}

/-- The bytes up to a cut and the bytes from it on. -/
theorem slice_append_slice (hi : r.HasAt i []) (hj : r.HasAt j []) (hij : i ≤ j) (hjk : j ≤ k) :
    r.slice i j ++ r.slice j k = r.slice i k := by
  obtain ⟨before, part, after, rfl, rfl, rfl⟩ := exists_between hi hj hij
  have hrest : fromByte (before.size + part.size) (before ++ (part ++ after)) = after := by
    rw [← List.append_assoc, ← size_append, fromByte_size_append]
  have hpart : uptoByte (k - before.size) part = part := uptoByte_of_size_le (by omega)
  rw [slice_append, slice, hrest, slice, fromByte_size_append, uptoByte_append, hpart, Nat.sub_sub]

theorem trim_append_of_isBlank (hgap : ∀ c ∈ gap, isBlank c) (s : Text) :
    trim (gap ++ s) = trim s := by
  rw [trim, List.dropWhile_append_of_pos hgap, trim]

end Text

namespace TokenStream

variable {source : Text} {s : TokenStream} {i j : Nat} {c : Char}

/-! ## Gaps -/

/-- Byte offset of what follows token `i`. -/
def stop (s : TokenStream) (i : Nat) : Nat :=
  s.offset i + (s.text i).size

/-- The text between token `i` and the next one. -/
def gap (s : TokenStream) (i : Nat) : Text :=
  s.source.slice (s.stop i) (s.offset (i + 1))

/-- The character stands at byte `n` of the text and is in no token. -/
def Outside (s : TokenStream) (n : Nat) (c : Char) : Prop :=
  s.source.HasAt n [c] ∧ ∀ t ∈ s.tokens.toList, n < t.start ∨ t.stop ≤ n

theorem hasAt_stop (h : tokenize source = .ok s) (i : Nat) : source.HasAt (s.stop i) [] := by
  obtain ⟨before, after, hsplit, hsize⟩ := hasAt_text h i
  refine ⟨before ++ s.text i, after, ?_, ?_⟩
  · rw [hsplit, List.nil_append, List.append_assoc]
  · rw [Text.size_append, hsize, stop]

theorem stop_of_token? {t : Token} (ht : s.token? i = some t) : s.stop i = t.stop := by
  rw [stop, offset_of_token? ht, text, ht]
  rfl

/-- A token ends before a later one starts. -/
theorem stop_le_offset (h : tokenize source = .ok s) (hij : i < j) : s.stop i ≤ s.offset j := by
  cases hu : s.token? j with
  | none =>
      -- Behind the last token the offset is the end of the text, and nothing ends behind that.
      obtain ⟨before, after, hsplit, hsize⟩ := hasAt_stop h i
      rw [offset, hu]
      show s.stop i ≤ s.source.size
      rw [source_of_tokenize h, ← hsize, hsplit, Text.size_append]
      omega
  | some u =>
      have hsize := lt_size_of_token? hu
      obtain ⟨t, ht⟩ : ∃ t, s.token? i = some t :=
        ⟨_, Array.getElem?_eq_getElem (Nat.lt_trans hij hsize)⟩
      rw [stop_of_token? ht, offset_of_token? hu]
      rw [token?_of_tokenize h] at ht hu
      obtain ⟨hi, rfl⟩ := List.getElem?_eq_some_iff.1 ht
      obtain ⟨hj, rfl⟩ := List.getElem?_eq_some_iff.1 hu
      exact List.pairwise_iff_getElem.1 (Token.pairwise_scanFrom 0 source) i j hi hj hij

/-- Later tokens do not start earlier, and the end of the text is behind them all. -/
theorem offset_mono (h : tokenize source = .ok s) (hij : i ≤ j) : s.offset i ≤ s.offset j := by
  rcases Nat.eq_or_lt_of_le hij with rfl | hij
  · exact Nat.le_refl _
  · exact Nat.le_trans (Nat.le_add_right _ _) (stop_le_offset h hij)

theorem slice_text (h : tokenize source = .ok s) (i : Nat) :
    source.slice (s.offset i) (s.stop i) = s.text i := by
  obtain ⟨before, after, hsplit, hsize⟩ := hasAt_text h i
  rw [stop, ← hsize, hsplit, Text.slice_append]

/-- Behind a token come the gap and the text from the next token on. -/
theorem slice_stop (h : tokenize source = .ok s) (hij : i < j) :
    source.slice (s.stop i) (s.offset j) = s.gap i ++ s.textBetween (i + 1) j := by
  have hnext : s.stop i ≤ s.offset (i + 1) := stop_le_offset h (Nat.lt_succ_self i)
  rw [gap, textBetween, source_of_tokenize h]
  exact (Text.slice_append_slice (hasAt_stop h i) (hasAt_offset h (i + 1)) hnext
    (offset_mono h hij)).symm

/-- The text from a token on is the token, the gap behind it and the text from the next one on. -/
theorem textBetween_eq_append (h : tokenize source = .ok s) (hij : i < j) :
    s.textBetween i j = s.text i ++ (s.gap i ++ s.textBetween (i + 1) j) := by
  rw [← slice_stop h hij, ← slice_text h i, textBetween, source_of_tokenize h]
  exact (Text.slice_append_slice (hasAt_offset h i) (hasAt_stop h i) (Nat.le_add_right _ _)
    (stop_le_offset h hij)).symm

/-- Between a token and itself there is no text. -/
theorem textBetween_self (s : TokenStream) (i : Nat) : s.textBetween i i = [] := by
  rw [textBetween, Text.slice, Nat.sub_self, Text.uptoByte]

/-- The characters of a gap are in no token. -/
theorem outside_of_mem_gap (h : tokenize source = .ok s) (hc : c ∈ s.gap i) :
    ∃ n, s.Outside n c := by
  obtain ⟨⟨before, after, hsplit, hbefore⟩, hsize⟩ :=
    Text.hasAt_slice (hasAt_stop h i) (hasAt_offset h (i + 1))
  rw [gap, source_of_tokenize h] at hc
  obtain ⟨x, y, hgap⟩ := List.append_of_mem hc
  rw [hgap] at hsplit hsize
  rw [Text.size_append, Text.size_cons] at hsize
  have hpos := c.utf8Size_pos
  refine ⟨s.stop i + Text.size x, ⟨before ++ x, y ++ after, ?_, ?_⟩, fun t ht => ?_⟩
  · rw [source_of_tokenize h, hsplit]
    simp only [List.append_assoc, List.cons_append, List.nil_append]
  · rw [Text.size_append, hbefore]
  -- A token is the one before the gap or an earlier one, or it is the one behind it or a later one.
  · obtain ⟨k, hk, rfl⟩ := List.getElem_of_mem ht
    have htoken : s.token? k = some s.tokens.toList[k] := by
      rw [token?, ← Array.getElem?_toList, List.getElem?_eq_getElem hk]
    rw [← stop_of_token? htoken, ← offset_of_token? htoken]
    rcases Nat.lt_or_ge i k with hik | hki
    · have := offset_mono h (show i + 1 ≤ k from hik)
      omega
    · right
      rcases Nat.eq_or_lt_of_le hki with rfl | hki
      · omega
      · have := stop_le_offset h hki
        have : s.offset i ≤ s.stop i := Nat.le_add_right _ _
        omega

theorem isBlank_of_mem_gap (h : tokenize source = .ok s) (hc : c ∈ s.gap i) : Text.isBlank c := by
  obtain ⟨n, hat, houtside⟩ := outside_of_mem_gap h hc
  rw [source_of_tokenize h] at hat
  rw [toList_of_tokenize h] at houtside
  have hlaid : Token.LaidOut 0 (Token.scan source) source := Token.LaidOut.scanFrom 0 source
  exact hlaid.isBlank_of_hasAt hat (by simpa using houtside)

end TokenStream

end HeaderReflection
