/-
  HeaderReflection.Proofs.LeftmostFields

  Which fields a body has, without a word about how they are looked for. The
  fields are the leftmost spans from a marker to the next closing parenthesis
  that do not overlap, and they cover every marker of the body. Such a list is
  unique, and the body has one unless a marker is left open before its end.
-/
import HeaderReflection.Proofs.Body
import HeaderReflection.Proofs.Gaps

namespace HeaderReflection

variable {source : Text} {s : TokenStream} {start bound close i m : Nat}

namespace TokenStream

/-- Token `m` is the field marker, and a parenthesis opens directly behind it. -/
def IsFieldMarker (s : TokenStream) (m : Nat) : Prop :=
  s.isIdent m fieldMarker ∧ s.isPunct (m + 1) '('

/-- A field marker whose parenthesis is not closed before the bound. -/
def LeftOpen (s : TokenStream) (m bound : Nat) : Prop :=
  s.IsFieldMarker m ∧ ∀ k, m + 1 < k → k < bound → s.isPunct k ')' = false

end TokenStream

/-! ## Spans of fields -/

/-- A field by the indices of its marker and of the parenthesis that ends it. -/
structure FieldSpan where
  marker : Nat
  paren : Nat
  deriving DecidableEq, Repr

variable {f : FieldSpan} {fs : List FieldSpan}

namespace FieldSpan

/-- The span goes from a field marker to the first closing parenthesis behind its opening one. -/
structure Stands (s : TokenStream) (f : FieldSpan) : Prop where
  marked : s.IsFieldMarker f.marker
  closed : s.isPunct f.paren ')'
  lt : f.marker + 1 < f.paren
  first : ∀ k, f.marker + 1 < k → k < f.paren → s.isPunct k ')' = false

/-- What stands between the parentheses, without the blanks around it. -/
def text (s : TokenStream) (f : FieldSpan) : Text :=
  (s.source.slice (s.stop (f.marker + 1)) (s.offset f.paren)).trim

/-- The blanks behind the opening parenthesis do not matter, so the text may as well be taken from
the token behind it on. -/
theorem trim_textBetween (hs : tokenize source = .ok s) (hf : f.Stands s) :
    (s.textBetween (f.marker + 2) f.paren).trim = f.text s := by
  rw [text, TokenStream.source_of_tokenize hs, TokenStream.slice_stop hs hf.lt,
    Text.trim_append_of_isBlank fun c hc => TokenStream.isBlank_of_mem_gap hs hc]

end FieldSpan

/-- The spans are the leftmost ones of the indices from `start` up to `bound`: they stand there, one
behind the other, and every field marker there opens one of them or is strictly inside of one. -/
structure LeftmostFields (s : TokenStream) (start bound : Nat) (fs : List FieldSpan) : Prop where
  stands : ∀ f ∈ fs, f.Stands s
  within : ∀ f ∈ fs, start ≤ f.marker ∧ f.paren < bound
  ordered : fs.Pairwise fun f g => f.paren < g.marker
  covers : ∀ m, start ≤ m → m < bound → s.IsFieldMarker m →
    ∃ f ∈ fs, f.marker = m ∨ f.marker < m ∧ m < f.paren

namespace LeftmostFields

theorem nil_iff :
    LeftmostFields s start bound [] ↔ ∀ m, start ≤ m → m < bound → ¬ s.IsFieldMarker m := by
  constructor
  · intro h m hstart hbound hm
    obtain ⟨f, hf, -⟩ := h.covers m hstart hbound hm
    cases hf
  · intro h
    refine ⟨by simp, by simp, .nil, fun m hstart hbound hm => ?_⟩
    exact absurd hm (h m hstart hbound)

/-- The first span starts at the first field marker, and the others are leftmost behind it. -/
theorem cons_iff :
    LeftmostFields s start bound (f :: fs) ↔
      (f.Stands s ∧ start ≤ f.marker ∧ f.paren < bound) ∧
        (∀ m, start ≤ m → m < f.marker → ¬ s.IsFieldMarker m) ∧
        LeftmostFields s (f.paren + 1) bound fs := by
  constructor
  · intro h
    have hf := h.stands f (List.mem_cons_self ..)
    have hwithin := h.within f (List.mem_cons_self ..)
    obtain ⟨hlater, hordered⟩ := List.pairwise_cons.1 h.ordered
    have hlt := hf.lt
    refine ⟨⟨hf, hwithin.1, hwithin.2⟩, fun m hstart hm hmarker => ?_, ?_⟩
    -- A span that has a marker before the first one does not start behind the first one.
    · obtain ⟨g, hg, hmg⟩ := h.covers m hstart (by omega) hmarker
      rcases List.mem_cons.1 hg with rfl | hg
      · omega
      · have := hlater g hg
        omega
    · refine ⟨fun g hg => h.stands g (List.mem_cons_of_mem _ hg), fun g hg => ?_, hordered,
        fun m hstart hbound hmarker => ?_⟩
      · exact ⟨hlater g hg, (h.within g (List.mem_cons_of_mem _ hg)).2⟩
      · obtain ⟨g, hg, hmg⟩ := h.covers m (by omega) hbound hmarker
        rcases List.mem_cons.1 hg with rfl | hg
        · omega
        · exact ⟨g, hg, hmg⟩
  · rintro ⟨⟨hf, hstart, hbound⟩, hbefore, h⟩
    have hlt := hf.lt
    refine ⟨List.forall_mem_cons.2 ⟨hf, h.stands⟩, List.forall_mem_cons.2 ⟨⟨hstart, hbound⟩, ?_⟩,
      List.pairwise_cons.2 ⟨fun g hg => (h.within g hg).1, h.ordered⟩, fun m hm hmb hmarker => ?_⟩
    · intro g hg
      have := h.within g hg
      exact ⟨by omega, this.2⟩
    -- A marker is before the first span, in it, or behind it. It is not its closing parenthesis.
    · rcases Nat.lt_or_ge m f.marker with hlo | hlo
      · exact absurd hmarker (hbefore m hm hlo)
      rcases Nat.lt_or_ge m f.paren with hhi | hhi
      · exact ⟨f, List.mem_cons_self .., by omega⟩
      have hne : m ≠ f.paren := by
        rintro rfl
        have hclosed := hf.closed
        simp [TokenStream.isPunct_of_isIdent hmarker.1] at hclosed
      obtain ⟨g, hg, hmg⟩ := h.covers m (by omega) hmb hmarker
      exact ⟨g, List.mem_cons_of_mem _ hg, hmg⟩

/-- In an empty range no span stands. -/
theorem eq_nil (h : LeftmostFields s start bound fs) (hle : bound ≤ start) : fs = [] := by
  cases fs with
  | nil => rfl
  | cons f fs =>
      obtain ⟨⟨hf, hstart, hbound⟩, -⟩ := cons_iff.1 h
      have := hf.lt
      omega

/-- A token that is no field marker may stand in front. -/
theorem of_succ (hi : ¬ s.IsFieldMarker i) (h : LeftmostFields s (i + 1) bound fs) :
    LeftmostFields s i bound fs := by
  refine ⟨h.stands, fun f hf => ?_, h.ordered, fun m him hbound hm => ?_⟩
  · have := h.within f hf
    exact ⟨by omega, this.2⟩
  · rcases Nat.eq_or_lt_of_le him with rfl | him
    · exact absurd hm hi
    · exact h.covers m him hbound hm

end LeftmostFields

/-! ## The scan of a body -/

/-- The scan goes past what is no field marker. -/
theorem collectFieldsFrom_succ (hi : i < close) (h : ¬ s.IsFieldMarker i) :
    collectFieldsFrom s close i = collectFieldsFrom s close (i + 1) := by
  cases hident : s.isIdent i fieldMarker with
  | false => exact skips_collectFieldsFrom s close i hi hident
  | true =>
      have hparen : s.isPunct (i + 1) '(' = false := by
        by_contra hp
        exact h ⟨hident, Bool.not_eq_false _ ▸ hp⟩
      rw [collectFieldsFrom_of_some (TokenStream.findIdent_self hident hi), hparen]
      rfl

theorem collectFieldsFrom_eq (hij : i ≤ m) (hm : m ≤ close)
    (h : ∀ k, i ≤ k → k < m → ¬ s.IsFieldMarker k) :
    collectFieldsFrom s close i = collectFieldsFrom s close m := by
  obtain ⟨d, rfl⟩ := Nat.exists_eq_add_of_le hij
  induction d with
  | zero => rfl
  | succ d ih =>
      rw [ih (by omega) (by omega) fun k hk hkd => h k hk (by omega)]
      exact collectFieldsFrom_succ (by omega) (h _ (by omega) (by omega))

/-- The scan reads a field off its span and goes on behind it. -/
theorem goes_of_stands (hs : tokenize source = .ok s) (hf : f.Stands s) (hclose : f.paren < close) :
    Goes (collectFieldsFrom s close) f.marker (f.paren + 1) [f.text s] := by
  have hlt := hf.lt
  have hparen : s.findPunct (f.marker + 2) close ')' = some f.paren :=
    TokenStream.findPunct_eq_some.2 ⟨⟨hlt, hclose⟩, hf.closed, hf.first⟩
  rw [Goes, collectFieldsFrom_of_some (TokenStream.findIdent_self hf.marked.1 (by omega)),
    if_pos hf.marked.2, hparen]
  simp only [FieldSpan.trim_textBetween hs hf]
  rfl

/-- The scan reads leftmost spans off, one after the other. -/
theorem goes_of_leftmost (hs : tokenize source = .ok s) (h : LeftmostFields s i m fs) (him : i ≤ m)
    (hm : m ≤ close) : Goes (collectFieldsFrom s close) i m (fs.map (·.text s)) := by
  induction fs generalizing i with
  | nil =>
      have hnone := LeftmostFields.nil_iff.1 h
      exact goes_of_eq (collectFieldsFrom_eq him hm hnone)
  | cons f fs ih =>
      obtain ⟨⟨hf, hstart, hbound⟩, hbefore, hrest⟩ := LeftmostFields.cons_iff.1 h
      have hlt := hf.lt
      have hskip : collectFieldsFrom s close i = collectFieldsFrom s close f.marker :=
        collectFieldsFrom_eq hstart (by omega) hbefore
      exact (goes_of_stands hs hf (by omega)).after hskip |>.trans (ih hrest (by omega))

theorem collectFieldsFrom_of_leftmost (hs : tokenize source = .ok s)
    (h : LeftmostFields s i close fs) :
    collectFieldsFrom s close i = .ok (fs.map (·.text s)) := by
  have hend {j : Nat} (hj : close ≤ j) : collectFieldsFrom s close j = .ok [] :=
    collectFieldsFrom_of_none (TokenStream.findIdent_eq_none.2 fun k hk hlt => by omega)
  rcases Nat.le_or_ge i close with hi | hi
  · have hgoes := goes_of_leftmost hs h hi (Nat.le_refl close)
    rw [Goes, hend (Nat.le_refl close)] at hgoes
    rw [hgoes]
    exact congrArg Except.ok (List.append_nil _)
  · rw [h.eq_nil hi, hend hi, List.map_nil]

/-- A marker that is left open is reported where it stands. -/
theorem collectFieldsFrom_of_leftOpen (hs : tokenize source = .ok s)
    (h : LeftmostFields s i m fs) (him : i ≤ m) (hm : m < close) (hopen : s.LeftOpen m close) :
    collectFieldsFrom s close i = .error (.unclosedField (s.offset m)) := by
  have hnone : s.findPunct (m + 2) close ')' = none :=
    TokenStream.findPunct_eq_none.2 hopen.2
  have hhere : collectFieldsFrom s close m = .error (.unclosedField (s.offset m)) := by
    rw [collectFieldsFrom_of_some (TokenStream.findIdent_self hopen.1.1 hm), if_pos hopen.1.2, hnone]
  have hgoes := goes_of_leftmost hs h him (Nat.le_of_lt hm)
  rw [Goes, hhere] at hgoes
  exact hgoes

/-- From every index on there are leftmost spans up to the end, or up to a marker that is left
open. -/
theorem exists_leftmost (s : TokenStream) (close i : Nat) :
    (∃ fs, LeftmostFields s i close fs) ∨
      ∃ fs m, LeftmostFields s i m fs ∧ (i ≤ m ∧ m < close) ∧ s.LeftOpen m close := by
  -- The scan goes on behind a token or behind a span, so the induction is on what is left of the body.
  induction hn : close - i using Nat.strongRecOn generalizing i with
  | ind n ih =>
      by_cases hi : i < close
      swap
      · exact .inl ⟨[], LeftmostFields.nil_iff.2 fun m hm hmc => by omega⟩
      by_cases hmarker : s.IsFieldMarker i
      · cases hparen : s.findPunct (i + 2) close ')' with
        | none =>
            have hnil : LeftmostFields s i i [] := LeftmostFields.nil_iff.2 fun m hm hmi => by omega
            exact .inr ⟨[], i, hnil, by omega, hmarker, TokenStream.findPunct_eq_none.1 hparen⟩
        | some paren =>
            obtain ⟨⟨hlt, hclose⟩, hclosed, hfirst⟩ := TokenStream.findPunct_eq_some.1 hparen
            have hf : FieldSpan.Stands s ⟨i, paren⟩ := ⟨hmarker, hclosed, hlt, hfirst⟩
            have hbefore : ∀ m, i ≤ m → m < i → ¬ s.IsFieldMarker m := fun m hm hmi => by omega
            rcases ih (close - (paren + 1)) (by omega) (paren + 1) rfl with
              ⟨fs, hfs⟩ | ⟨fs, m, hfs, hm, hopen⟩
            · exact .inl ⟨⟨i, paren⟩ :: fs,
                LeftmostFields.cons_iff.2 ⟨⟨hf, Nat.le_refl i, hclose⟩, hbefore, hfs⟩⟩
            · refine .inr ⟨⟨i, paren⟩ :: fs, m, ?_, by omega, hopen⟩
              exact LeftmostFields.cons_iff.2 ⟨⟨hf, Nat.le_refl i, hm.1⟩, hbefore, hfs⟩
      · rcases ih (close - (i + 1)) (by omega) (i + 1) rfl with ⟨fs, hfs⟩ | ⟨fs, m, hfs, hm, hopen⟩
        · exact .inl ⟨fs, hfs.of_succ hmarker⟩
        · exact .inr ⟨fs, m, hfs.of_succ hmarker, by omega, hopen⟩

/-! ## The fields of a body -/

variable {opening : Nat}

/-- The fields of a body are the texts of its leftmost spans. The reading fails exactly if a field
marker behind such spans is left open in the body, whatever stands behind the body, and reports the
first such marker. -/
theorem collectFields_leftmost (hs : tokenize source = .ok s) :
    (∀ fields, collectFields s opening close = .ok fields ↔
      ∃ fs, LeftmostFields s (opening + 1) close fs ∧ fields = fs.map (·.text s)) ∧
    (∀ e, collectFields s opening close = .error e ↔
      ∃ fs m, LeftmostFields s (opening + 1) m fs ∧ (opening < m ∧ m < close) ∧
        s.LeftOpen m close ∧ e = .unclosedField (s.offset m)) := by
  have hok {fs : List FieldSpan} (h : LeftmostFields s (opening + 1) close fs) :
      collectFields s opening close = .ok (fs.map (·.text s)) :=
    collectFieldsFrom_of_leftmost hs h
  have herror {fs : List FieldSpan} {m : Nat} (h : LeftmostFields s (opening + 1) m fs)
      (hm : opening < m ∧ m < close) (hopen : s.LeftOpen m close) :
      collectFields s opening close = .error (.unclosedField (s.offset m)) :=
    collectFieldsFrom_of_leftOpen hs h hm.1 hm.2 hopen
  refine ⟨fun fields => ⟨fun h => ?_, ?_⟩, fun e => ⟨fun h => ?_, ?_⟩⟩
  · rcases exists_leftmost s close (opening + 1) with ⟨fs, hfs⟩ | ⟨fs, m, hfs, hm, hopen⟩
    · exact ⟨fs, hfs, Except.ok.inj (h.symm.trans (hok hfs))⟩
    · cases h.symm.trans (herror hfs hm hopen)
  · rintro ⟨fs, hfs, rfl⟩
    exact hok hfs
  · rcases exists_leftmost s close (opening + 1) with ⟨fs, hfs⟩ | ⟨fs, m, hfs, hm, hopen⟩
    · cases h.symm.trans (hok hfs)
    · exact ⟨fs, m, hfs, hm, hopen, Except.error.inj (h.symm.trans (herror hfs hm hopen))⟩
  · rintro ⟨fs, m, hfs, hm, hopen, rfl⟩
    exact herror hfs hm hopen

/-- A body with a nested one, a marker inside of a field and a marker without a parenthesis, and a
body whose second field is closed only behind it. -/
def twoBodies : Text :=
  ("struct A\x7b int REFLECT( a )=1; struct B\x7b REFLECT(REFLECT(b)); \x7d; REFLECT; \x7d;" ++
    "struct C\x7b int REFLECT(c); int REFLECT(d; \x7d; int f();").toList

theorem collectFields_leftmost_nested :
    ∃ s, tokenize twoBodies = .ok s ∧
      s.closer 2 = some 26 ∧
      (∃ fs, LeftmostFields s 3 26 fs ∧
        ["a".toList, "REFLECT(b".toList] = fs.map (·.text s)) ∧
      s.closer 30 = some 42 ∧
      ∃ fs m, LeftmostFields s 31 m fs ∧ (30 < m ∧ m < 42) ∧ s.LeftOpen m 42 ∧
        .unclosedField 105 = ParseError.unclosedField (s.offset m) := by
  have hrun : (tokenize twoBodies >>= fun s =>
      Except.ok (collectFields s 2 26, collectFields s 30 42, s.closer 2, s.closer 30)) =
        .ok (.ok ["a".toList, "REFLECT(b".toList], .error (.unclosedField 105), some 26, some 42) := by
    decide +kernel
  obtain ⟨s, hs, hfacts⟩ := bind_eq_ok.1 hrun
  simp only [Except.ok.injEq, Prod.mk.injEq] at hfacts
  obtain ⟨hfirst, hsecond, hcloser, hcloser'⟩ := hfacts
  exact ⟨s, hs, hcloser, ((collectFields_leftmost hs).1 _).1 hfirst, hcloser',
    ((collectFields_leftmost hs).2 _).1 hsecond⟩

end HeaderReflection
