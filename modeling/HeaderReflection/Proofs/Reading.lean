/-
  HeaderReflection.Proofs.Reading

  Reading back the symbols that a text spells: they are its tokens, and the text
  between two of them spells those that stand there.
-/
import HeaderReflection.Proofs.Balance
import HeaderReflection.Proofs.Slices
import HeaderReflection.Proofs.Spelling

namespace HeaderReflection

/-! ## Scanning a spelled text -/

namespace Token

variable {c : Char} {r x gap s : Text} {start : Nat} {t : Symbol} {ts us : List Symbol}

/-- An identifier ends where its word characters do. -/
theorem identTail_append_of_isWord (hr : ∀ c ∈ r, Text.isWord c)
    (hx : ∀ c, x.head? = some c → Text.isWord c = false) :
    identTail false (r ++ x) = (r, x) := by
  induction r with
  | nil =>
      cases x with
      | nil => rfl
      | cons c x => simp [identTail, hx c rfl]
  | cons c r ih =>
      rw [List.forall_mem_cons] at hr
      rw [List.cons_append, identTail, ih hr.2]
      simp [hr.1]

theorem isDigit_of_isAlpha (h : c.isAlpha) : c.isDigit = false := by
  have hletter := isAlpha_iff.1 h
  rw [Bool.eq_false_iff, Ne, isDigit_iff]
  omega

/-- A symbol is cut off whole. -/
theorem cut_symbol (h : t.text = c :: r)
    (hx : t.isWord → ∀ d, x.head? = some d → Text.isWord d = false) :
    cut c (r ++ x) = (t.kind, r, x) := by
  cases t with
  | word w =>
      obtain ⟨c', r', hw, halpha, hall⟩ := w.exists_cons
      obtain ⟨rfl, rfl⟩ := List.cons.inj (hw.symm.trans h)
      have hr : ∀ d ∈ r', Text.isWord d := fun d hd =>
        isWord_of_isWordChar (hall d (List.mem_cons_of_mem _ hd))
      rw [cut, if_pos (isWord_of_isWordChar (hall c' List.mem_cons_self)),
        isDigit_of_isAlpha halpha, identTail_append_of_isWord hr (hx rfl)]
      rfl
  | colons =>
      obtain ⟨rfl, rfl⟩ := List.cons.inj (show [':', ':'] = c :: r from h)
      rfl
  | mark m =>
      obtain ⟨rfl, rfl⟩ := List.cons.inj (show [m.char] = c :: r from h)
      cases m <;> rfl

theorem scanFrom_of_blank (h : Text.isBlank c) :
    scanFrom start (c :: r) = scanFrom (start + c.utf8Size) r := by
  rw [scanFrom.eq_def]
  exact if_pos h

/-- A scan takes what is cut off as one token and goes on behind it. -/
theorem scanFrom_of_cut {kind : TokenKind} {cs : Text} (h : Text.isBlank c = false)
    (hcut : cut c r = (kind, cs, x)) :
    scanFrom start (c :: r) =
      ⟨kind, start, c :: cs⟩ :: scanFrom (start + Text.size (c :: cs)) x := by
  rw [scanFrom.eq_def]
  simp [h, hcut]

/-- A symbol is scanned whole. -/
theorem scanFrom_symbol (t : Symbol)
    (hx : t.isWord → ∀ d, x.head? = some d → Text.isWord d = false) :
    scanFrom start (t.text ++ x) =
      ⟨t.kind, start, t.text⟩ :: scanFrom (start + t.text.size) x := by
  obtain ⟨c, r, h⟩ := List.exists_cons_of_ne_nil t.text_ne_nil
  have hblank : Text.isBlank c = false := (Symbol.isBlank_of_mem_text (t := t) (by simp [h])).1
  rw [h, List.cons_append]
  exact scanFrom_of_cut hblank (cut_symbol h hx)

theorem scanFrom_blanks (hgap : ∀ c ∈ gap, Text.isBlank c) :
    scanFrom start (gap ++ x) = scanFrom (start + gap.size) x := by
  induction gap generalizing start with
  | nil => rfl
  | cons c gap ih =>
      rw [List.forall_mem_cons] at hgap
      rw [List.cons_append, scanFrom_of_blank hgap.1, ih hgap.2, Text.size_cons, Nat.add_assoc]

/-- A scan passes over a gap. -/
theorem scanFrom_gap (hgap : ∀ c ∈ gap, c ∈ [' ']) :
    scanFrom start (gap ++ x) = scanFrom (start + gap.size) x := by
  apply scanFrom_blanks
  intro c hc
  obtain rfl : c = ' ' := by simpa using hgap c hc
  decide

/-- The first symbol and its gap are scanned by themselves. -/
theorem scanFrom_cons (hgap : ∀ c ∈ gap, c ∈ [' ']) (hsep : Separates t ts.head? gap)
    (h : Spells [' '] ts s) :
    scanFrom start (t.text ++ (gap ++ s)) =
      ⟨t.kind, start, t.text⟩ :: scanFrom (start + (t.text ++ gap).size) s := by
  rw [scanFrom_symbol, scanFrom_gap hgap, Text.size_append, Nat.add_assoc]
  -- What follows a word is its gap, or else a symbol that is no word.
  intro ht d hd
  cases gap with
  | cons c gap =>
      obtain rfl : c = d := by simpa using hd
      obtain rfl : c = ' ' := by simpa using hgap c List.mem_cons_self
      decide
  | nil =>
      obtain ⟨u, hu, hmem⟩ := h.exists_of_head? hd
      have hword : u.isWord = false := by
        by_contra hword
        exact hsep.apart ht (by simpa [hu] using hword) rfl
      cases u with
      | word => simp [Symbol.isWord] at hword
      | colons =>
          obtain rfl : d = ':' := by simpa [Symbol.text] using hmem
          decide
      | mark m =>
          obtain rfl : d = m.char := by simpa [Symbol.text] using hmem
          cases m <;> decide

/-- The tokens of a spelled text are its symbols. -/
theorem map_scanFrom (h : Spells [' '] ts s) :
    (scanFrom start s).map (fun u => (u.kind, u.lexeme)) = ts.map fun t => (t.kind, t.text) := by
  induction h generalizing start with
  | nil =>
      rw [scanFrom.eq_def]
      rfl
  | cons hgap hsep h ih => rw [scanFrom_cons hgap hsep h, List.map_cons, List.map_cons, ih]

/-- The parts of the text that spell parts of the symbols are scanned one after the other. -/
theorem exists_scanFrom_append (h : Spells [' '] (ts ++ us) s) (start : Nat) :
    ∃ a b front, s = a ++ b ∧ Spells [' '] ts a ∧ Spells [' '] us b ∧ front.length = ts.length ∧
      scanFrom start s = front ++ scanFrom (start + a.size) b := by
  induction ts generalizing s start with
  | nil => exact ⟨[], s, [], rfl, Spells.nil, h, rfl, rfl⟩
  | cons t ts ih =>
      cases h with
      | @cons _ _ gap text hgap hsep h =>
      obtain ⟨a, b, front, rfl, ha, hb, hlen, hscan⟩ := ih h (start + (t.text ++ gap).size)
      have hsep' : Separates t ts.head? gap := by
        refine ⟨?_, fun ht hnext => hsep.apart ht ?_⟩
        · rintro (ht | hnext)
          · exact hsep.tight (Or.inl ht)
          · exact hsep.tight (Or.inr (by cases ts <;> simp_all))
        · cases ts <;> simp_all
      refine ⟨t.text ++ (gap ++ a), b, ⟨t.kind, start, t.text⟩ :: front, by simp,
        Spells.cons hgap hsep' ha, hb, by simp [hlen], ?_⟩
      rw [scanFrom_cons hgap hsep h, hscan]
      simp only [Text.size_append, List.cons_append, Nat.add_assoc]

end Token

/-! ## Streams that read as symbols -/

/-- The tokens of the stream are the symbols, and the text between two of them spells those that stand
there. -/
structure Reads (s : TokenStream) (all : List Symbol) : Prop where
  tokens : s.tokens.toList.map (fun u => (u.kind, u.lexeme)) = all.map fun t => (t.kind, t.text)
  spells : ∀ front mid back, back ≠ [] → all = front ++ (mid ++ back) →
    Spells [' '] mid (s.textBetween front.length (front.length + mid.length))

variable {source : Text} {s : TokenStream} {all ts us : List Symbol} {t : Symbol} {i j k : Nat}

/-- The first symbol that is still to be scanned stands where the scan goes on. -/
theorem offset_of_scan {scanned : List Token} {n : Nat} {x : Text} (hs : tokenize source = .ok s)
    (hscan : Token.scan source = scanned ++ Token.scanFrom n x) (hx : Spells [' '] ts x)
    (hts : ts ≠ []) : s.offset scanned.length = n := by
  cases hx with
  | nil => exact absurd rfl hts
  | @cons t _ gap text hgap hsep hx =>
      have htoken : s.token? scanned.length = some ⟨t.kind, n, t.text⟩ := by
        rw [TokenStream.token?_of_tokenize hs, hscan, Token.scanFrom_cons hgap hsep hx,
          List.getElem?_append_right (Nat.le_refl _), Nat.sub_self]
        rfl
      exact TokenStream.offset_of_token? htoken

/-- The stream of a spelled text reads as its symbols. -/
theorem reads_of_spells (hs : tokenize source = .ok s) (h : Spells [' '] all source) :
    Reads s all := by
  refine ⟨?_, fun front mid back hback hall => ?_⟩
  · obtain ⟨pairs, -, rfl⟩ := TokenStream.tokenize_eq_ok.1 hs
    exact Token.map_scanFrom h
  -- The text is cut where the front ends and where the middle ends. The tokens that start there have
  -- the sizes of the cut parts as their offsets.
  · subst hall
    obtain ⟨a, b, scanned, rfl, -, hb, hlen, hscan⟩ := Token.exists_scanFrom_append h 0
    obtain ⟨m, r, scanned', rfl, hm, hr, hlen', hscan'⟩ :=
      Token.exists_scanFrom_append hb (0 + a.size)
    have hfront : s.offset front.length = a.size := by
      have := offset_of_scan hs hscan hb (by simp [hback])
      simpa [hlen] using this
    have hmid : s.offset (front.length + mid.length) = a.size + m.size := by
      rw [hscan', ← List.append_assoc scanned scanned'] at hscan
      have := offset_of_scan hs hscan hr hback
      simpa [hlen, hlen'] using this
    have hsource : s.source = a ++ (m ++ r) := by
      obtain ⟨pairs, -, rfl⟩ := TokenStream.tokenize_eq_ok.1 hs
      rfl
    rw [TokenStream.textBetween, hfront, hmid, hsource, Text.slice_append]
    exact hm

/-! ## Look-ups in such a stream -/

namespace Reads

theorem size_eq (h : Reads s all) : s.size = all.length := by
  simpa [TokenStream.size] using congrArg List.length h.tokens

/-- The token at an index is the symbol there. -/
theorem token?_eq (h : Reads s all) (hi : all[i]? = some t) :
    ∃ u, s.token? i = some u ∧ u.kind = t.kind ∧ u.lexeme = t.text := by
  have htokens := congrArg (·[i]?) h.tokens
  simp only [List.getElem?_map, hi, Option.map_some] at htokens
  obtain ⟨u, hu, heq⟩ := Option.map_eq_some_iff.1 htokens
  rw [Prod.mk.injEq] at heq
  exact ⟨u, by simpa [TokenStream.token?] using hu, heq⟩

theorem isIdent_eq (h : Reads s all) (hi : all[i]? = some t) (name : Text) :
    s.isIdent i name = t.isNamed name := by
  obtain ⟨u, hu, hkind, hlexeme⟩ := h.token?_eq hi
  rw [TokenStream.isIdent, hu, Option.any_some, Token.isIdent, hkind, hlexeme]
  cases t <;> rfl

theorem isPunct_eq (h : Reads s all) (hi : all[i]? = some t) (c : Char) :
    s.isPunct i c = decide (t.kind = .punct c) := by
  obtain ⟨u, hu, hkind, -⟩ := h.token?_eq hi
  rw [TokenStream.isPunct, hu, Option.any_some, Token.isPunct, hkind]
  rfl

theorem isWord_eq (h : Reads s all) (hi : all[i]? = some t) : s.isWord i = t.isWord := by
  obtain ⟨u, hu, hkind, -⟩ := h.token?_eq hi
  rw [TokenStream.isWord, hu, Option.any_some, Token.isIdent, hkind]
  cases t <;> rfl

theorem text_eq (h : Reads s all) (hi : all[i]? = some t) : s.text i = t.text := by
  obtain ⟨u, hu, -, hlexeme⟩ := h.token?_eq hi
  rw [TokenStream.text, hu]
  exact hlexeme

end Reads

/-! ## Where symbols stand -/

/-- The symbols stand in the list from index `i` on. -/
def StandsAt (all : List Symbol) (i : Nat) (ts : List Symbol) : Prop :=
  ∃ front back, all = front ++ (ts ++ back) ∧ front.length = i

namespace StandsAt

theorem all_zero (all : List Symbol) : StandsAt all 0 all :=
  ⟨[], [], by simp, rfl⟩

theorem left (h : StandsAt all i (ts ++ us)) : StandsAt all i ts := by
  obtain ⟨front, back, rfl, hi⟩ := h
  exact ⟨front, us ++ back, by simp, hi⟩

theorem right (h : StandsAt all i (ts ++ us)) : StandsAt all (i + ts.length) us := by
  obtain ⟨front, back, rfl, rfl⟩ := h
  exact ⟨front ++ ts, back, by simp, by simp⟩

theorem tail (h : StandsAt all i (t :: ts)) : StandsAt all (i + 1) ts := by
  have hsplit : StandsAt all i ([t] ++ ts) := h
  exact hsplit.right

theorem getElem? (h : StandsAt all i ts) (hk : k < ts.length) : all[i + k]? = ts[k]? := by
  obtain ⟨front, back, rfl, rfl⟩ := h
  rw [List.getElem?_append_right (by omega), Nat.add_sub_cancel_left, List.getElem?_append_left hk]

theorem head (h : StandsAt all i (t :: ts)) : all[i]? = some t :=
  h.getElem? (k := 0) (by simp)

/-- At an index between the first symbol and the last one there is one of them. -/
theorem exists_mem (h : StandsAt all i ts) (hij : i ≤ j) (hj : j < i + ts.length) :
    ∃ t ∈ ts, all[j]? = some t := by
  obtain ⟨d, rfl⟩ := Nat.exists_eq_add_of_le hij
  have hd : d < ts.length := by omega
  refine ⟨ts[d], List.getElem_mem hd, ?_⟩
  rw [h.getElem? hd, List.getElem?_eq_getElem hd]

theorem length_le (h : StandsAt all i ts) : i + ts.length ≤ all.length := by
  obtain ⟨front, back, rfl, rfl⟩ := h
  simp only [List.length_append]
  omega

end StandsAt

/-- The text between two places spells what stands between them. -/
theorem Reads.spells_of_standsAt (h : Reads s all) (hat : StandsAt all i (ts ++ us))
    (hus : us ≠ []) : Spells [' '] ts (s.textBetween i (i + ts.length)) := by
  obtain ⟨front, back, rfl, rfl⟩ := hat
  refine h.spells front ts (us ++ back) ?_ (by simp)
  simp [hus]

/-- A brace is closed behind the balanced symbols that follow it. -/
theorem Reads.closer_eq (h : Reads s all) (hs : tokenize source = .ok s)
    (hat : StandsAt all i (.mark .openBrace :: (ts ++ .mark .closeBrace :: us)))
    (hts : Balanced (ts.map (·.kind))) : s.closer i = some (i + 1 + ts.length) := by
  obtain ⟨front, back, hall, rfl⟩ := hat
  have htokens := h.tokens
  simp only [hall, List.cons_append, List.append_assoc, List.map_append, List.map_cons] at htokens
  obtain ⟨before, rest, hsplit, hbefore, hrest⟩ := List.map_eq_append_iff.1 htokens
  obtain ⟨o, rest, rfl, ho, hrest⟩ := List.map_eq_cons_iff.1 hrest
  obtain ⟨inside, rest, rfl, hinside, hrest⟩ := List.map_eq_append_iff.1 hrest
  obtain ⟨c, rest, rfl, hc, -⟩ := List.map_eq_cons_iff.1 hrest
  have hkinds : inside.map (·.kind) = ts.map (·.kind) := by
    simpa only [List.map_map, Function.comp_def] using congrArg (List.map Prod.fst) hinside
  have hclose := closer_of_balanced hs hsplit (congrArg Prod.fst ho) (hkinds ▸ hts)
    (congrArg Prod.fst hc)
  rwa [show before.length = front.length by simpa using congrArg List.length hbefore,
    show inside.length = ts.length by simpa using congrArg List.length hinside] at hclose

end HeaderReflection
