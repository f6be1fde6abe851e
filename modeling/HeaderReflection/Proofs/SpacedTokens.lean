/-
  HeaderReflection.Proofs.SpacedTokens

  Canonical spacing keeps the tokens of a text. The scan of the respaced text
  goes along with that of the text: no two tokens grow together, because a space
  is left out only beside a space, a brace or a semicolon, and a literal ends at
  the same quote, although a space that a backslash escapes may be left out.
-/
import HeaderReflection.Proofs.BracePairs
import HeaderReflection.Proofs.Comments
import HeaderReflection.Proofs.Reading
import HeaderReflection.Proofs.SpacingPass

namespace HeaderReflection

open NormalForm

variable {c d : Char} {s r : Text} {last : Option Char} {pending : Bool} {quote : Char}

/-! ## Behind a character -/

namespace NormalForm

theorem eq_of_isLayout (hc : isLayout c) : c = ' ' ∨ c = '\n' ∨ c = '\r' ∨ c = '\t' := by
  simpa [isLayout, or_assoc] using hc

theorem isBlank_of_isLayout (hc : isLayout c) : Text.isBlank c := by
  rcases eq_of_isLayout hc with rfl | rfl | rfl | rfl <;> rfl

theorem isWord_of_isLayout (hc : isLayout c) : Text.isWord c = false := by
  rcases eq_of_isLayout hc with rfl | rfl | rfl | rfl <;> rfl

theorem isAsciiAlphanumeric_of_isLayout (hc : isLayout c) : Text.isAsciiAlphanumeric c = false := by
  rcases eq_of_isLayout hc with rfl | rfl | rfl | rfl <;> rfl

theorem ne_of_isLayout (hc : isLayout c) (hd : isLayout d = false) : c ≠ d := by
  rintro rfl
  simp [hc] at hd

/-- The characters behind which canonical spacing leaves no space. -/
def closers : List Char := ['\x7b', '\x7d', ';']

/-- Between two characters a space is left out only behind a closer or before a brace. -/
theorem mem_of_allowsSpace (hc : c ∉ closers) (h : allowsSpace (some c) (some d) = false) :
    d ∈ ['\x7b', '\x7d'] := by
  simp only [closers, List.mem_cons, List.not_mem_nil, or_false, not_or] at hc
  by_contra hd
  simp only [List.mem_cons, List.not_mem_nil, or_false, not_or] at hd
  simp [allowsSpace, hc, hd] at h

/-- Blanks behind a character come out as a space, or vanish before a brace. -/
theorem exists_spaceOut_pending (hc : c ∉ closers) (s : Text) :
    ∃ d t, spaceOut allowsSpace (some c) true s = d :: t ∧ d ∈ [' ', '\x7b', '\x7d'] := by
  induction s with
  | nil =>
      refine ⟨' ', [], ?_, by simp⟩
      simp only [closers, List.mem_cons, List.not_mem_nil, or_false, not_or] at hc
      rw [spaceOut, allowsSpace, some_bne_of_ne hc.1, some_bne_of_ne hc.2.1, some_bne_of_ne hc.2.2]
      rfl
  | cons d s ih =>
      by_cases hd : isLayout d
      · rwa [spaceOut_of_layout hd]
      rw [Bool.not_eq_true] at hd
      rw [spaceOut_of_not_layout hd, Bool.true_and]
      cases h : allowsSpace (some c) (some d) with
      | true => exact ⟨' ', _, rfl, by simp⟩
      | false => exact ⟨d, _, rfl, List.mem_cons_of_mem _ (mem_of_allowsSpace hc h)⟩

/-- A test that no blank and no brace passes does not see the spacing. -/
theorem any_head?_spaceOut {f : Char → Bool} (hc : c ∉ closers)
    (hlayout : ∀ d, isLayout d → f d = false) (hopen : f '\x7b' = false) (hclose : f '\x7d' = false)
    (s : Text) :
    (spaceOut allowsSpace (some c) false s).head?.any f = s.head?.any f := by
  cases s with
  | nil => rfl
  | cons d s =>
      by_cases hd : isLayout d
      · obtain ⟨e, t, heq, he⟩ := exists_spaceOut_pending hc s
        rw [spaceOut_of_layout hd, heq]
        have hfe : f e = false := by
          simp only [List.mem_cons, List.not_mem_nil, or_false] at he
          rcases he with rfl | rfl | rfl
          · exact hlayout ' ' rfl
          · exact hopen
          · exact hclose
        simp [hfe, hlayout d hd]
      · rw [Bool.not_eq_true] at hd
        rw [spaceOut_of_not_layout hd]
        rfl

/-- The second colon of a separator stands directly behind the first. -/
theorem head?_spaceOut_colon (s : Text) :
    ((spaceOut allowsSpace (some ':') false s).head? == some ':') = (s.head? == some ':') := by
  have hany : ∀ t : Text, (t.head? == some ':') = t.head?.any (· == ':') := by
    intro t
    cases t <;> simp
  rw [hany, hany]
  apply any_head?_spaceOut (by decide) _ rfl rfl
  intro d hd
  exact beq_false_of_ne (ne_of_isLayout hd (by decide))

end NormalForm

namespace Token

/-! ## One token -/

theorem identTail_cons (numeric : Bool) (c : Char) (r : Text) :
    identTail numeric (c :: r) =
      if Text.isWord c || (numeric && c == '\'' && r.head?.any Text.isAsciiAlphanumeric) then
        (c :: (identTail numeric r).1, (identTail numeric r).2)
      else ([], c :: r) := rfl

theorem not_mem_closers_of_isWord (hc : Text.isWord c) : c ∉ closers := by
  intro hin
  simp only [closers, List.mem_cons, List.not_mem_nil, or_false] at hin
  rcases hin with rfl | rfl | rfl <;> exact absurd hc (by decide)

/-- An identifier or a number ends where it did. -/
theorem identTail_spaceOut (numeric : Bool) (hc : c ∉ closers) (s : Text) :
    (identTail numeric (spaceOut allowsSpace (some c) false s)).1 = (identTail numeric s).1 ∧
      ∃ last, (identTail numeric (spaceOut allowsSpace (some c) false s)).2 =
        spaceOut allowsSpace last false (identTail numeric s).2 := by
  induction s generalizing c with
  | nil => exact ⟨rfl, none, rfl⟩
  | cons d s ih =>
      by_cases hd : isLayout d
      -- Behind blanks comes a space or a brace, and neither goes on with it.
      · obtain ⟨e, t, heq, he⟩ := exists_spaceOut_pending hc s
        have hstop : identTail numeric (d :: s) = ([], d :: s) := by
          have hne : d ≠ '\'' := ne_of_isLayout hd (by decide)
          rw [identTail_cons, if_neg (by simp [isWord_of_isLayout hd, hne])]
        have hstop' : identTail numeric (e :: t) = ([], e :: t) := by
          simp only [List.mem_cons, List.not_mem_nil, or_false] at he
          have hword : Text.isWord e = false := by rcases he with rfl | rfl | rfl <;> decide
          have hne : e ≠ '\'' := by rcases he with rfl | rfl | rfl <;> decide
          rw [identTail_cons, if_neg (by simp [hword, hne])]
        rw [hstop, spaceOut_of_layout hd, heq, hstop', ← heq, ← spaceOut_of_layout hd]
        exact ⟨rfl, some c, rfl⟩
      rw [Bool.not_eq_true] at hd
      have hcons : spaceOut allowsSpace (some c) false (d :: s) =
          d :: spaceOut allowsSpace (some d) false s := spaceOut_of_not_layout hd
      -- A quote in a number asks for a letter or a digit behind it, which is no blank.
      have htest : (d == '\'' && (spaceOut allowsSpace (some d) false s).head?.any
          Text.isAsciiAlphanumeric) = (d == '\'' && s.head?.any Text.isAsciiAlphanumeric) := by
        by_cases hquote : d = '\''
        · subst hquote
          rw [any_head?_spaceOut (by decide) (fun _ => isAsciiAlphanumeric_of_isLayout) rfl rfl]
        · rw [beq_false_of_ne hquote, Bool.false_and, Bool.false_and]
      rw [hcons, identTail_cons, identTail_cons, Bool.and_assoc, Bool.and_assoc, htest]
      split
      · next hgoes =>
        have hdc : d ∉ closers := by
          simp only [Bool.or_eq_true, Bool.and_eq_true, beq_iff_eq] at hgoes
          rcases hgoes with hword | ⟨-, rfl, -⟩
          · exact not_mem_closers_of_isWord hword
          · decide
        obtain ⟨hfirst, last, hrest⟩ := ih hdc
        exact ⟨by rw [hfirst], last, hrest⟩
      · exact ⟨rfl, some c, hcons.symm⟩

theorem literalTail_of_other {escaped : Bool} (hquote : c ≠ quote) (hescape : c ≠ '\\') (r : Text) :
    (literalTail quote escaped (c :: r)).2 = (literalTail quote false r).2 := by
  simp [literalTail, hquote, beq_false_of_ne hescape]

theorem literalTail_of_escaped (c : Char) (r : Text) :
    (literalTail quote true (c :: r)).2 = (literalTail quote false r).2 := by
  simp [literalTail]

/-- How the reading of a literal stands in a text and in the respaced text: what was written last,
whether blanks are waiting, and whether the next character is escaped in the one and in the other. -/
inductive InStep : Option Char → Bool → Bool → Bool → Prop
  | plain {last : Option Char} {pending : Bool} : InStep last pending false false
  | escaped : InStep (some '\\') false true true
  /-- A blank was escaped and is waiting, so what is written next will be. -/
  | waiting : InStep (some '\\') true false true

/-- A literal ends at the same quote. -/
theorem literalTail_spaceOut {e e' : Bool} (hlayout : isLayout quote = false)
    (hquote : quote ∉ closers) (h : InStep last pending e e') (s : Text) :
    ∃ last', (literalTail quote e' (spaceOut allowsSpace last pending s)).2 =
      spaceOut allowsSpace last' false (literalTail quote e s).2 := by
  have hspace : ' ' ≠ quote := (ne_space_of_not_layout hlayout).symm
  induction s generalizing last pending e e' with
  | nil =>
      refine ⟨none, ?_⟩
      rw [spaceOut]
      cases pending && allowsSpace last none with
      | false => rfl
      | true => exact literalTail_of_other hspace (by decide) []
  | cons d s ih =>
      by_cases hd : isLayout d
      · have hne : d ≠ quote := ne_of_isLayout hd hlayout
        have hescape : d ≠ '\\' := ne_of_isLayout hd (by decide)
        rw [spaceOut_of_layout hd, literalTail_of_other hne hescape]
        cases h with
        | plain => exact ih .plain
        | escaped => exact ih .waiting
        | waiting => exact ih .waiting
      rw [Bool.not_eq_true] at hd
      -- Both texts go on with the same character, which is escaped in neither of them.
      have hboth : ∃ last',
          (literalTail quote false (d :: spaceOut allowsSpace (some d) false s)).2 =
            spaceOut allowsSpace last' false (literalTail quote false (d :: s)).2 := by
        by_cases hclose : d = quote
        · subst hclose
          exact ⟨some d, by simp [literalTail]⟩
        by_cases hescape : d = '\\'
        · subst hescape
          simpa [literalTail, hclose] using ih .escaped
        · rw [literalTail_of_other hclose hescape, literalTail_of_other hclose hescape]
          exact ih .plain
      rw [spaceOut_of_not_layout hd]
      cases h with
      | plain =>
          cases pending && allowsSpace last (some d) with
          | false => exact hboth
          | true =>
              rw [spaceIf_true, List.singleton_append, literalTail_of_other hspace (by decide)]
              exact hboth
      | escaped =>
          rw [Bool.false_and, spaceIf_false, List.nil_append, literalTail_of_escaped,
            literalTail_of_escaped]
          exact ih .plain
      | waiting =>
          cases hallows : allowsSpace (some '\\') (some d) with
          | true =>
              rw [Bool.true_and, spaceIf_true, List.singleton_append, literalTail_of_escaped]
              exact hboth
          | false =>
              -- The blank is left out before a brace, which is then escaped instead of it.
              have hbrace := mem_of_allowsSpace (by decide) hallows
              simp only [List.mem_cons, List.not_mem_nil, or_false] at hbrace
              have hclose : d ≠ quote := by
                rintro rfl
                exact hquote (by rcases hbrace with rfl | rfl <;> decide)
              have hescape : d ≠ '\\' := by rcases hbrace with rfl | rfl <;> decide
              rw [Bool.and_false, spaceIf_false, List.nil_append, literalTail_of_escaped,
                literalTail_of_other hclose hescape]
              exact ih .plain

/-- What a token says, but for its place and the spaces in a literal. -/
def face (t : Token) : TokenKind × Option Text :=
  (t.kind, if t.kind = .literal then none else some t.lexeme)

/-- The first token of the respaced text is that of the text, and what follows it is respaced. -/
theorem cut_spaceOut (c : Char) (s : Text) (n n' : Nat) :
    face ⟨(cut c (spaceOut allowsSpace (some c) false s)).1, n',
        c :: (cut c (spaceOut allowsSpace (some c) false s)).2.1⟩ =
      face ⟨(cut c s).1, n, c :: (cut c s).2.1⟩ ∧
    ∃ last, (cut c (spaceOut allowsSpace (some c) false s)).2.2 =
      spaceOut allowsSpace last false (cut c s).2.2 := by
  unfold cut
  -- A word and a literal go on in the text, a colon may, and any other character is a token.
  by_cases hword : Text.isWord c
  · obtain ⟨hfirst, hrest⟩ := identTail_spaceOut c.isDigit (not_mem_closers_of_isWord hword) s
    simp only [if_pos hword]
    exact ⟨by simp [face, hfirst], hrest⟩
  simp only [if_neg hword]
  by_cases hquote : c = '"' ∨ c = '\''
  · have hlayout : isLayout c = false := by rcases hquote with rfl | rfl <;> decide
    have hclosers : c ∉ closers := by rcases hquote with rfl | rfl <;> decide
    have htest : (c == '"' || c == '\'') = true := by simpa using hquote
    simp only [if_pos htest]
    exact ⟨rfl, literalTail_spaceOut hlayout hclosers .plain s⟩
  have htest : ¬ (c == '"' || c == '\'') = true := by simpa using hquote
  simp only [if_neg htest]
  by_cases hcolon : c = ':'
  · subst hcolon
    simp only [head?_spaceOut_colon, beq_self_eq_true, Bool.true_and]
    split
    · next hsecond =>
      obtain ⟨r, rfl⟩ := List.head?_eq_some_iff.1 (beq_iff_eq.1 hsecond)
      rw [spaceOut_of_not_layout (by decide)]
      exact ⟨rfl, some ':', rfl⟩
    · exact ⟨rfl, some ':', rfl⟩
  · have htest : ∀ t : Text, ¬ (c == ':' && t.head? == some ':') = true := by simp [hcolon]
    simp only [if_neg (htest _)]
    exact ⟨rfl, some c, rfl⟩

/-! ## All tokens -/

theorem scanFrom_spaceIf (n : Nat) (b : Bool) (s : Text) :
    ∃ n', scanFrom n (spaceIf b ++ s) = scanFrom n' s := by
  cases b with
  | false => exact ⟨n, rfl⟩
  | true => exact ⟨_, scanFrom_of_blank (by decide)⟩

/-- The respaced text has the same tokens. -/
theorem map_face_scanFrom_spaceOut (n n' : Nat) (last : Option Char) (pending : Bool) (s : Text) :
    (scanFrom n' (spaceOut allowsSpace last pending s)).map face = (scanFrom n s).map face := by
  fun_induction scanFrom n s generalizing n' last pending with
  | case1 n =>
      -- At most a space is written at the end.
      obtain ⟨m, hm⟩ := scanFrom_spaceIf n' (pending && allowsSpace last none) []
      rw [spaceOut, ← List.append_nil (spaceIf _), hm, scanFrom.eq_def]
  | case2 n c r hblank ih =>
      -- A blank that is no layout character is written as it is, and the scan goes past it.
      by_cases hc : isLayout c
      · rw [spaceOut_of_layout hc]
        exact ih _ _ _
      · rw [Bool.not_eq_true] at hc
        obtain ⟨m, hm⟩ := scanFrom_spaceIf n' (pending && allowsSpace last (some c))
          (c :: spaceOut allowsSpace (some c) false r)
        rw [spaceOut_of_not_layout hc, hm, scanFrom_of_blank hblank]
        exact ih _ _ _
  | case3 n c r hblank lexeme ih =>
      have hc : isLayout c = false := by
        by_contra h
        exact hblank (isBlank_of_isLayout (by simpa using h))
      rw [Bool.not_eq_true] at hblank
      obtain ⟨m, hm⟩ := scanFrom_spaceIf n' (pending && allowsSpace last (some c))
        (c :: spaceOut allowsSpace (some c) false r)
      -- The two tokens say the same, and the scans go on behind them.
      obtain ⟨hface, last', hrest⟩ := cut_spaceOut c r n m
      have hcut : ∀ t, cut c t = ((cut c t).1, (cut c t).2.1, (cut c t).2.2) := fun t => rfl
      rw [spaceOut_of_not_layout hc, hm, scanFrom_of_cut hblank (hcut _), List.map_cons,
        List.map_cons, hface, hrest, ih]

theorem map_face_scan_respace (s : Text) : (scan (respace s)).map face = (scan s).map face := by
  rw [respace_eq]
  exact map_face_scanFrom_spaceOut 0 0 none false s

end Token

/-! ## Braces -/

/-- Two readings of tokens that agree: both succeed, with results that are related, or both find
the same kind of fault in the braces. -/
inductive Agree {α : Type} (R : α → α → Prop) : Except ParseError α → Except ParseError α → Prop
  | ok {a b : α} (h : R a b) : Agree R (.ok a) (.ok b)
  | unmatchedClose (n n' : Nat) : Agree R (.error (.unmatchedClose n)) (.error (.unmatchedClose n'))
  | unterminatedScope (n n' : Nat) :
      Agree R (.error (.unterminatedScope n)) (.error (.unterminatedScope n'))

theorem Agree.bind {α β : Type} {R : α → α → Prop} {R' : β → β → Prop} {x y : Except ParseError α}
    {f g : α → Except ParseError β} (h : Agree R x y) (hfg : ∀ a b, R a b → Agree R' (f a) (g b)) :
    Agree R' (x >>= f) (y >>= g) := by
  cases h with
  | ok h => exact hfg _ _ h
  | unmatchedClose n n' => exact .unmatchedClose n n'
  | unterminatedScope n n' => exact .unterminatedScope n n'

/-- A reading agrees with one that succeeds by succeeding. -/
theorem Agree.exists_ok {α : Type} {R : α → α → Prop} {a : α} {y : Except ParseError α}
    (h : Agree R (.ok a) y) : ∃ b, y = .ok b ∧ R a b := by
  cases h with
  | ok h => exact ⟨_, rfl, h⟩

/-- Which braces are a pair is a matter of the kinds of the tokens. -/
theorem agree_pairBracesFrom {i : Nat} {opened opened' : List (Nat × Nat)} {ts us : List Token}
    (hkinds : ts.map (·.kind) = us.map (·.kind)) (hopened : opened.map (·.1) = opened'.map (·.1)) :
    Agree Eq (pairBracesFrom i opened ts) (pairBracesFrom i opened' us) := by
  -- By induction on the tokens. The stacks hold the same braces, maybe at other offsets.
  induction ts generalizing i opened opened' us with
  | nil =>
      obtain rfl : us = [] := by simpa using hkinds.symm
      cases opened with
      | nil =>
          obtain rfl : opened' = [] := by simpa using hopened.symm
          exact .ok rfl
      | cons q outer =>
          obtain ⟨q', outer', rfl, -⟩ := List.map_eq_cons_iff.1 hopened.symm
          exact .unterminatedScope _ _
  | cons t ts ih =>
      obtain ⟨u, us, rfl, hkind, hkinds⟩ := List.map_eq_cons_iff.1 hkinds.symm
      have hpunct : ∀ c, u.isPunct c = t.isPunct c := by
        intro c
        rw [Token.isPunct, hkind, Token.isPunct]
      by_cases hl : t.isPunct '{'
      · rw [pairBracesFrom_cons_open hl, pairBracesFrom_cons_open ((hpunct _).trans hl)]
        exact ih hkinds.symm (by simpa using hopened)
      by_cases hr : t.isPunct '}'
      · cases opened with
        | nil =>
            obtain rfl : opened' = [] := by simpa using hopened.symm
            rw [pairBracesFrom_nil_close hr, pairBracesFrom_nil_close ((hpunct _).trans hr)]
            exact .unmatchedClose _ _
        | cons q outer =>
            obtain ⟨q', outer', rfl, hq, houter⟩ := List.map_eq_cons_iff.1 hopened.symm
            rw [pairBracesFrom_cons_close hr, pairBracesFrom_cons_close ((hpunct _).trans hr), hq]
            refine (ih hkinds.symm houter.symm).bind fun pairs pairs' h => ?_
            rw [h]
            exact .ok rfl
      · rw [pairBracesFrom_cons_other hl hr,
          pairBracesFrom_cons_other (by rwa [hpunct]) (by rwa [hpunct])]
        exact ih hkinds.symm hopened

/-! ## Whole texts -/

/-- The streams have the same tokens at the same indices, but for their places and the spaces in
literals, and the same braces are pairs. -/
structure TokenStream.Alike (s s' : TokenStream) : Prop where
  size : s.size = s'.size
  kind : ∀ i, (s.token? i).map (·.kind) = (s'.token? i).map (·.kind)
  text : ∀ i, (s.token? i).map (·.kind) ≠ some .literal → s.text i = s'.text i
  closer : ∀ i, s.closer i = s'.closer i

/-- Texts with the same tokens are tokenized alike. -/
theorem agree_tokenize {source source' : Text}
    (h : (Token.scan source).map Token.face = (Token.scan source').map Token.face) :
    Agree TokenStream.Alike (tokenize source) (tokenize source') := by
  have hkinds : (Token.scan source).map (·.kind) = (Token.scan source').map (·.kind) := by
    have := congrArg (List.map Prod.fst) h
    rwa [List.map_map, List.map_map] at this
  refine (agree_pairBracesFrom hkinds rfl).bind fun pairs pairs' hpairs => .ok ?_
  have hlength := congrArg List.length h
  rw [List.length_map, List.length_map] at hlength
  have hface : ∀ i : Nat, ((Token.scan source)[i]?).map Token.face =
      ((Token.scan source')[i]?).map Token.face := by
    intro i
    rw [← List.getElem?_map, h, List.getElem?_map]
  refine ⟨hlength, fun i => ?_, fun i hi => ?_, fun i => by rw [TokenStream.closer, hpairs]; rfl⟩
  · have := congrArg (Option.map Prod.fst) (hface i)
    simpa [TokenStream.token?, Option.map_map, Function.comp_def, Token.face] using this
  · have hi' := hface i
    simp only [TokenStream.token?, List.getElem?_toArray, TokenStream.text] at hi ⊢
    cases ht : (Token.scan source)[i]? with
    | none =>
        rw [ht] at hi'
        rw [Option.map_eq_none_iff.1 hi'.symm]
    | some t =>
        rw [ht] at hi hi'
        obtain ⟨u, hu, hface⟩ := Option.map_eq_some_iff.1 hi'.symm
        -- Only the texts of literals may differ.
        have hliteral : t.kind ≠ .literal := by simpa using hi
        simp only [Token.face, Prod.mk.injEq] at hface
        rw [hface.1, if_neg hliteral, if_neg hliteral] at hface
        rw [hu]
        exact (Option.some.inj hface.2).symm

/-- Without number signs and slashes there are no directives and no comments. -/
theorem NormalForm.normalize_of_plain (hsharp : '#' ∉ s) (hslash : '/' ∉ s) :
    normalize s = .ok (respace s) := by
  have := (Reduces.nil.plain hsharp hslash).normalize_eq
  rwa [List.append_nil] at this

/-- A text without number signs and slashes has a normal form, which is tokenized as the text is. -/
theorem agree_tokenize_normalize {raw : Text} (hsharp : '#' ∉ raw) (hslash : '/' ∉ raw) :
    ∃ source, normalize raw = .ok source ∧
      Agree TokenStream.Alike (tokenize raw) (tokenize source) :=
  ⟨respace raw, normalize_of_plain hsharp hslash,
    agree_tokenize (Token.map_face_scan_respace raw).symm⟩

/-- A struct with a number and with a string that escapes a space before a brace. -/
def looseStruct : Text :=
  "struct\tA \x7b\n T x = 1'000 ;\r\n U y = \"\\ \x7b  \\\" ;\" ;  \x7d ;\n".toList

/-- The struct in canonical spacing. -/
def tightStruct : Text :=
  "struct A\x7bT x = 1'000 ;U y = \"\\\x7b\\\" ;\" ;\x7d;".toList

/-- The streams of the struct, and a text whose brace is not opened, which is found at different
bytes. -/
theorem agree_tokenize_normalize_loose :
    (('#' ∉ looseStruct ∧ '/' ∉ looseStruct) ∧ normalize looseStruct = .ok tightStruct ∧
      ∃ s s', tokenize looseStruct = .ok s ∧ tokenize tightStruct = .ok s' ∧ s.Alike s') ∧
    ('#' ∉ "a \x7d".toList ∧ '/' ∉ "a \x7d".toList) ∧
      normalize "a \x7d".toList = .ok "a\x7d".toList ∧
      tokenize "a \x7d".toList = .error (.unmatchedClose 2) ∧
      Agree TokenStream.Alike (tokenize "a \x7d".toList) (tokenize "a\x7d".toList) := by
  constructor
  · have hplain : '#' ∉ looseStruct ∧ '/' ∉ looseStruct := by decide
    have hnormal : normalize looseStruct = .ok tightStruct := by decide +kernel
    have hok : (tokenize looseStruct).toBool := by decide +kernel
    obtain ⟨source, hsource, hagree⟩ := agree_tokenize_normalize hplain.1 hplain.2
    obtain rfl := Except.ok.inj (hsource.symm.trans hnormal)
    refine ⟨hplain, hnormal, ?_⟩
    revert hok hagree
    generalize tokenize looseStruct = x, tokenize tightStruct = y
    intro hok hagree
    cases hagree with
    | ok h => exact ⟨_, _, rfl, rfl, h⟩
    | unmatchedClose => simp [Except.toBool] at hok
    | unterminatedScope => simp [Except.toBool] at hok
  · have hplain : '#' ∉ "a \x7d".toList ∧ '/' ∉ "a \x7d".toList := by decide
    have hnormal : normalize "a \x7d".toList = .ok "a\x7d".toList := by decide +kernel
    have hpairs : pairBraces (Token.scan "a \x7d".toList) = .error (.unmatchedClose 2) := by
      decide +kernel
    obtain ⟨source, hsource, hagree⟩ := agree_tokenize_normalize hplain.1 hplain.2
    obtain rfl := Except.ok.inj (hsource.symm.trans hnormal)
    refine ⟨hplain, hnormal, ?_, hagree⟩
    rw [tokenize, hpairs]
    rfl

end HeaderReflection
