/-
  HeaderReflection.Proofs.CanonicalForm

  What a normal form looks like, and which texts share one. It is one line
  without comments, in which every space stands between two characters that are
  no spaces and allow one. A text without directives and comments is changed in
  its layout alone: two such texts have the same normal form just when they are
  the same up to layout, and a normal form of that kind is its own normal form.
-/
import HeaderReflection.Proofs.SpacedTokens
import HeaderReflection.Proofs.SpacingPass
import Mathlib.Data.List.Chain

namespace HeaderReflection

namespace NormalForm

variable {a b c p : Char} {s s' t before after code r : Text} {last : Option Char}
variable {pending : Bool} {keep : Option Char → Option Char → Bool}

/-! ## Layout classes -/

/-- Every run of layout characters becomes one space, written in the place of its last one. -/
def oneSpacePerRun : Text → Text
  | [] => []
  | c :: r =>
    if isLayout c then
      if r.head?.any isLayout then oneSpacePerRun r else ' ' :: oneSpacePerRun r
    else c :: oneSpacePerRun r

/-- Leaves out the spaces at the start of the text, beside a brace and right behind a semicolon;
`last` stands before the text. -/
def dropIdleSpaces (last : Option Char) : Text → Text
  | [] => []
  | c :: r =>
    if c == ' ' && !allowsSpace last r.head? then dropIdleSpaces (some c) r
    else c :: dropIdleSpaces (some c) r

/-- What of a text does not depend on how it is laid out. -/
def layoutClass (s : Text) : Text :=
  dropIdleSpaces none (oneSpacePerRun s)

theorem oneSpacePerRun_of_not_layout (hc : isLayout c = false) (s : Text) :
    oneSpacePerRun (c :: s) = c :: oneSpacePerRun s := by
  rw [oneSpacePerRun, if_neg (by simp [hc])]

theorem dropIdleSpaces_cons_of_ne (hc : c ≠ ' ') (last : Option Char) (s : Text) :
    dropIdleSpaces last (c :: s) = c :: dropIdleSpaces (some c) s := by
  rw [dropIdleSpaces, if_neg (by simp [hc])]

/-- A space before another character stays if it is allowed between that and what stands before. -/
theorem dropIdleSpaces_space (hc : c ≠ ' ') (last : Option Char) (s : Text) :
    dropIdleSpaces last (' ' :: c :: s) =
      spaceIf (allowsSpace last (some c)) ++ c :: dropIdleSpaces (some c) s := by
  rw [dropIdleSpaces, dropIdleSpaces_cons_of_ne hc, List.head?_cons]
  cases allowsSpace last (some c) <;> rfl

/-- The layout of a text is changed run by run, or in one pass that keeps blanks waiting. -/
theorem dropIdleSpaces_oneSpacePerRun (last : Option Char) (s : Text) :
    dropIdleSpaces last (oneSpacePerRun s) = spaceOut allowsSpace last false s ∧
      ∀ c, isLayout c →
        dropIdleSpaces last (oneSpacePerRun (c :: s)) = spaceOut allowsSpace last true s := by
  induction s generalizing last with
  | nil =>
      refine ⟨rfl, fun c hc => ?_⟩
      rw [oneSpacePerRun, if_pos hc]
      show dropIdleSpaces last [' '] = spaceIf (allowsSpace last none)
      cases h : allowsSpace last none <;> simp [dropIdleSpaces, h]
  | cons d s ih =>
      by_cases hd : isLayout d
      · -- The run goes on, and its space is written further on.
        refine ⟨?_, fun c hc => ?_⟩
        · rw [(ih last).2 d hd, spaceOut_of_layout hd]
        · rw [oneSpacePerRun, if_pos hc, List.head?_cons, Option.any_some, if_pos hd, (ih last).2 d hd,
            spaceOut_of_layout hd]
      · rw [Bool.not_eq_true] at hd
        have hspace := ne_space_of_not_layout hd
        refine ⟨?_, fun c hc => ?_⟩
        · rw [oneSpacePerRun_of_not_layout hd, dropIdleSpaces_cons_of_ne hspace, (ih (some d)).1,
            spaceOut_of_not_layout hd]
          rfl
        · rw [oneSpacePerRun, if_pos hc, List.head?_cons, Option.any_some, hd,
            if_neg Bool.false_ne_true, oneSpacePerRun_of_not_layout hd, dropIdleSpaces_space hspace,
            (ih (some d)).1, spaceOut_of_not_layout hd, Bool.true_and]

/-- Respacing leaves of a text what does not depend on its layout. -/
theorem respace_eq_layoutClass (s : Text) : respace s = layoutClass s := by
  rw [respace_eq, layoutClass, (dropIdleSpaces_oneSpacePerRun none s).1]

/-! ## Spaced texts -/

/-- A text that is spaced out is not changed when it is spaced out again. -/
theorem spaceOut_spaceOut (last : Option Char) (pending : Bool) (s : Text) :
    spaceOut keep last false (spaceOut keep last pending s) = spaceOut keep last pending s := by
  induction s generalizing last pending with
  | nil =>
      rw [spaceOut]
      cases h : pending && keep last none with
      | false => rfl
      | true =>
          -- The space at the end was allowed, so it is allowed again.
          rw [Bool.and_eq_true] at h
          rw [spaceIf_true, spaceOut_of_layout (by rfl), spaceOut, h.2]
          rfl
  | cons c s ih =>
      by_cases hc : isLayout c
      · rw [spaceOut_of_layout hc, ih]
      rw [Bool.not_eq_true] at hc
      rw [spaceOut_of_not_layout hc]
      cases h : pending && keep last (some c) with
      | false => rw [spaceIf_false, List.nil_append, spaceOut_of_not_layout hc, ih, Bool.false_and,
          spaceIf_false, List.nil_append]
      | true =>
          rw [Bool.and_eq_true] at h
          rw [spaceIf_true, List.singleton_append, spaceOut_of_layout (by rfl),
            spaceOut_of_not_layout hc, ih, h.2]
          rfl

/-- A text that is respaced is not changed by respacing. -/
theorem respace_respace (s : Text) : respace (respace s) = respace s := by
  rw [respace_eq s, respace_eq, spaceOut_spaceOut]

/-- May the second character stand right behind the first one in canonical spacing? -/
def MayFollow (a b : Char) : Prop :=
  (a = ' ' → b ∉ [' ', '\x7b', '\x7d']) ∧ (b = ' ' → a ∉ [' ', '\x7b', '\x7d', ';'])

theorem mayFollow_of_ne (ha : a ≠ ' ') (hb : b ≠ ' ') : MayFollow a b :=
  ⟨fun h => absurd h ha, fun h => absurd h hb⟩

/-- A space that is allowed behind a character may follow it. -/
theorem mayFollow_space {next : Option Char} (ha : a ≠ ' ') (h : allowsSpace (some a) next) :
    MayFollow a ' ' := by
  refine ⟨fun h => absurd h ha, fun _ hmem => ?_⟩
  simp only [List.mem_cons, List.not_mem_nil, or_false] at hmem
  rcases hmem with rfl | rfl | rfl | rfl
  · exact ha rfl
  all_goals simp [allowsSpace] at h

/-- A character that allows a space before it may follow one. -/
theorem space_mayFollow (hb : b ≠ ' ') (h : allowsSpace last (some b)) : MayFollow ' ' b := by
  refine ⟨fun _ hmem => ?_, fun h => absurd h hb⟩
  simp only [List.mem_cons, List.not_mem_nil, or_false] at hmem
  rcases hmem with rfl | rfl | rfl
  · exact hb rfl
  all_goals simp [allowsSpace] at h

/-- Each character that is written may follow the one before it. -/
theorem isChain_spaceOut (hc : c ≠ ' ') (pending : Bool) (s : Text) :
    (c :: spaceOut allowsSpace (some c) pending s).IsChain MayFollow := by
  -- Layout is only kept waiting; each other character comes next, with or without a space before it.
  induction s generalizing c pending with
  | nil =>
      rw [spaceOut]
      cases h : pending && allowsSpace (some c) none with
      | false => exact List.isChain_singleton c
      | true =>
          rw [Bool.and_eq_true] at h
          exact List.isChain_pair.2 (mayFollow_space hc h.2)
  | cons d s ih =>
      by_cases hd : isLayout d
      · rw [spaceOut_of_layout hd]
        exact ih hc true
      rw [Bool.not_eq_true] at hd
      have hspace := ne_space_of_not_layout hd
      have hrest := ih hspace false
      rw [spaceOut_of_not_layout hd]
      cases h : pending && allowsSpace (some c) (some d) with
      | false => exact List.isChain_cons_cons.2 ⟨mayFollow_of_ne hc hspace, hrest⟩
      | true =>
          rw [Bool.and_eq_true] at h
          exact List.isChain_cons_cons.2 ⟨mayFollow_space hc h.2,
            List.isChain_cons_cons.2 ⟨space_mayFollow hspace h.2, hrest⟩⟩

/-- A respaced text starts with no space, and each of its characters may follow the one before it. -/
theorem isChain_respace (s : Text) :
    (respace s).head? ≠ some ' ' ∧ (respace s).IsChain MayFollow := by
  rw [respace_eq]
  -- Blanks at the start are waiting until a character is written, and then they are dropped.
  have hstart : ∀ pending, (spaceOut allowsSpace none pending s).head? ≠ some ' ' ∧
      (spaceOut allowsSpace none pending s).IsChain MayFollow := by
    induction s with
    | nil =>
        intro pending
        have hnil : spaceOut allowsSpace none pending [] = [] := by cases pending <;> rfl
        rw [hnil]
        exact ⟨by simp, List.isChain_nil⟩
    | cons c s ih =>
        intro pending
        by_cases hc : isLayout c
        · rw [spaceOut_of_layout hc]
          exact ih true
        rw [Bool.not_eq_true] at hc
        have hspace := ne_space_of_not_layout hc
        have hnone : (pending && allowsSpace none (some c)) = false := by cases pending <;> rfl
        rw [spaceOut_of_not_layout hc, hnone, spaceIf_false, List.nil_append]
        exact ⟨by simpa using hspace, isChain_spaceOut hspace false s⟩
  exact hstart false

/-! ## Pairs of slashes -/

/-- Two characters that respacing puts side by side are spaces, or one of them takes the space beside
it. -/
theorem Thins.pair_infix (h : Thins p s s') (ha : a ∉ [' ', '\x7b', '\x7d', ';'])
    (hb : b ∉ [' ', '\x7b', '\x7d', ';']) (hin : [a, b] <:+: s') : [a, b] <:+: s := by
  induction h with
  | nil => exact hin
  | @keep p c s s' h ih =>
      rw [List.infix_cons_iff, List.cons_prefix_cons] at hin ⊢
      rcases hin with ⟨rfl, hin⟩ | hin
      · left
        refine ⟨rfl, ?_⟩
        -- Behind `a` no space is left out, so `b` stood there before.
        cases h with
        | nil => exact hin
        | keep => simpa using hin
        | dropAfter hp => exact absurd hp ha
        | dropBefore hc =>
            have hb' := (List.cons_prefix_cons.1 hin).1
            simp only [List.mem_cons, List.not_mem_nil, or_false] at hc hb
            grind
      · exact Or.inr (ih hin)
  | dropAfter hp h ih => exact (ih hin).trans (List.suffix_cons _ _).isInfix
  | dropBefore hc h ih => exact (ih hin).trans (List.suffix_cons _ _).isInfix

theorem pair_infix_of_flatten (ha : a ≠ ' ') (hb : b ≠ ' ') (hin : [a, b] <:+: flatten s) :
    [a, b] <:+: s := by
  have heq : ∀ c d : Char, (if c == '\n' || c == '\r' || c == '\t' then ' ' else c) = d → d ≠ ' ' →
      c = d := by
    intro c d hcd hd
    split at hcd
    · exact absurd hcd.symm hd
    · exact hcd
  obtain ⟨front, back, h⟩ := hin
  rw [flatten, eq_comm, List.map_eq_append_iff] at h
  obtain ⟨x, back', rfl, hx, -⟩ := h
  obtain ⟨front', pair, rfl, -, hpair⟩ := List.map_eq_append_iff.1 hx
  obtain ⟨y, rest, rfl, hy, hrest⟩ := List.map_eq_cons_iff.1 hpair
  obtain ⟨z, rest, rfl, hz, hnil⟩ := List.map_eq_cons_iff.1 hrest
  obtain rfl := List.map_eq_nil_iff.1 hnil
  rw [heq y a hy ha, heq z b hz hb]
  exact ⟨front', back', rfl⟩

/-- Respacing puts no two slashes side by side. -/
theorem not_slashes_respace (h : ¬ ['/', '/'] <:+: s) : ¬ ['/', '/'] <:+: respace s := by
  refine respace_induction (P := fun t => ¬ ['/', '/'] <:+: t) ?_ fun p t t' hthins ht hin => ?_
  · exact fun hin => h (pair_infix_of_flatten (by decide) (by decide) hin)
  · exact ht (hthins.pair_infix (by decide) (by decide) hin)

/-- What a line comment leaves begins with the line feed behind it, if anything. -/
theorem head?_dropLineComments (h : s.head? ≠ some '/') :
    (dropLineComments s).head? ≠ some '/' := by
  cases s with
  | nil => rw [dropLineComments_of_none rfl]; simp
  | cons c s =>
      rw [List.head?_cons, ne_eq, Option.some.injEq] at h
      have hkept := dropLineComments_append (s := [c]) (by simpa using Ne.symm h) s
      rw [List.singleton_append] at hkept
      rw [hkept]
      simpa using h

/-- No line comment is left, and none is made of what stood around one. -/
theorem not_slashes_dropLineComments (s : Text) : ¬ ['/', '/'] <:+: dropLineComments s := by
  rw [← Text.breakAt_eq_none_iff]
  fun_induction dropLineComments s with
  | case1 s h => exact h
  | case2 s code r h ih =>
      cases hd : dropLineComments (r.dropWhile (· != '\n')) with
      | nil => rw [List.append_nil]; exact Text.breakAt_before h
      | cons d rest =>
          have hline : (r.dropWhile (· != '\n')).head? ≠ some '/' := by
            intro hslash
            have := List.head?_dropWhile_not (· != '\n') r
            rw [hslash] at this
            simp at this
          have hslash := head?_dropLineComments hline
          rw [hd, List.head?_cons, ne_eq, Option.some.injEq] at hslash
          rw [hd] at ih
          rw [Text.breakAt_append_of_none (Text.breakAt_before h) (Or.inr hslash), ih]
          rfl

end NormalForm

open NormalForm

/-! ## Normal forms -/

/-- The text is one line without comments; it starts with no space, and no space stands beside another
one or a brace or right behind a semicolon. -/
structure IsCanonical (t : Text) : Prop where
  oneLine : ∀ c ∈ ['\r', '\n', '\t'], c ∉ t
  single : ¬ [' ', ' '] <:+: t
  start : t.head? ≠ some ' '
  braces : ∀ b ∈ ['\x7b', '\x7d'], ¬ [' ', b] <:+: t ∧ ¬ [b, ' '] <:+: t
  semicolon : ¬ [';', ' '] <:+: t
  uncommented : ¬ ['/', '/'] <:+: t

theorem isCanonical_of_normalize {raw t : Text} (h : normalize raw = .ok t) : IsCanonical t := by
  obtain ⟨code, -, rfl⟩ := normalize_eq_ok.1 h
  obtain ⟨hstart, hchain⟩ := isChain_respace (dropLineComments code)
  have hpair : ∀ a b, [a, b] <:+: respace (dropLineComments code) → MayFollow a b :=
    fun a b hin => List.isChain_pair.1 <| hchain.infix hin
  refine ⟨fun c hc hin => ?_, fun hin => ?_, hstart, fun b hb => ⟨fun hin => ?_, fun hin => ?_⟩,
    fun hin => ?_, not_slashes_respace (not_slashes_dropLineComments code)⟩
  · rw [respace_eq] at hin
    have hlayout := isLayout_of_mem_spaceOut hin
    simp only [List.mem_cons, List.not_mem_nil, or_false] at hc
    rcases hc with rfl | rfl | rfl <;> simp [isLayout] at hlayout
  · exact (hpair _ _ hin).1 rfl (by simp)
  · exact (hpair _ _ hin).1 rfl (List.mem_cons_of_mem _ hb)
  · refine (hpair _ _ hin).2 rfl ?_
    simp only [List.mem_cons, List.not_mem_nil, or_false] at hb ⊢
    tauto
  · exact (hpair _ _ hin).2 rfl (by simp)

/-- Every normal form is canonical. A text without number signs and slashes is changed in its layout
alone: what is left of it is its layout class, so two such texts have the same normal form just when
their layout classes are the same. And a normal form without number signs and slashes is its own. -/
theorem canonical_normalForm :
    (∀ raw t, normalize raw = .ok t → IsCanonical t) ∧
    (∀ raw, '#' ∉ raw → '/' ∉ raw → normalize raw = .ok (layoutClass raw)) ∧
    (∀ raw raw', '#' ∉ raw → '/' ∉ raw → '#' ∉ raw' → '/' ∉ raw' →
      (normalize raw = normalize raw' ↔ layoutClass raw = layoutClass raw')) ∧
    (∀ raw t, normalize raw = .ok t → '#' ∉ t → '/' ∉ t → normalize t = .ok t) := by
  have hplain : ∀ raw, '#' ∉ raw → '/' ∉ raw → normalize raw = .ok (layoutClass raw) := by
    intro raw hsharp hslash
    rw [normalize_of_plain hsharp hslash, respace_eq_layoutClass]
  refine ⟨fun raw t h => isCanonical_of_normalize h, hplain, ?_, ?_⟩
  · intro raw raw' hsharp hslash hsharp' hslash'
    rw [hplain raw hsharp hslash, hplain raw' hsharp' hslash', Except.ok.injEq]
  · intro raw t h hsharp hslash
    obtain ⟨code, -, rfl⟩ := normalize_eq_ok.1 h
    rw [normalize_of_plain hsharp hslash, respace_respace]

/-- A header with a directive of two lines and with comments. Its normal form ends with a space, and is
shared by a text that is laid out otherwise. -/
theorem canonical_normalForm_loose :
    let raw : Text := "#if A \\\n B\n\t/* x */a \t\x7b // y\nb ; \r\n\x7d c //".toList
    let tight : Text := "a\x7bb ;\x7dc ".toList
    let loose : Text := "\n a\r\n\x7bb ; \x7d\tc\n\n".toList
    normalize raw = .ok tight ∧ IsCanonical tight ∧
      ('#' ∉ tight ∧ '/' ∉ tight) ∧ normalize tight = .ok tight ∧
      ('#' ∉ loose ∧ '/' ∉ loose) ∧ layoutClass loose = layoutClass tight ∧
      normalize loose = normalize tight := by
  intro raw tight loose
  obtain ⟨hcanonical, -, hclass, hfixed⟩ := canonical_normalForm
  have hraw : normalize raw = .ok tight := by decide +kernel
  have htight : '#' ∉ tight ∧ '/' ∉ tight := by decide
  have hloose : '#' ∉ loose ∧ '/' ∉ loose := by decide
  have hsame : layoutClass loose = layoutClass tight := by decide +kernel
  exact ⟨hraw, hcanonical raw tight hraw, htight, hfixed raw tight hraw htight.1 htight.2, hloose,
    hsame, (hclass loose tight hloose.1 hloose.2 htight.1 htight.2).2 hsame⟩

end HeaderReflection
