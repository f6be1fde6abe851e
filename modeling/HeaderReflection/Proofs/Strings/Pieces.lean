/-
  HeaderReflection.Proofs.Strings.Pieces

  Texts as lists of tokens with the spaces behind them, literals among them. A
  list of such pieces is cut off as its tokens if that holds whatever follows;
  lists of which it holds can be put together.
-/
import HeaderReflection.Proofs.Balance
import HeaderReflection.Proofs.Joined.Scan

namespace HeaderReflection

/-- A token with the spaces that stand behind it. -/
structure Piece where
  kind : TokenKind
  lexeme : Text
  gap : Text
  deriving DecidableEq

namespace Piece

/-- The characters of a token and the spaces behind it. -/
def text (p : Piece) : Text :=
  p.lexeme ++ p.gap

/-- A word. -/
def word (w gap : Text) : Piece :=
  ⟨.ident, w, gap⟩

/-- A punctuation. -/
def mark (m : Mark) (gap : Text) : Piece :=
  ⟨.punct m.char, [m.char], gap⟩

/-- A string literal with the given content. -/
def string (content : Text) : Piece :=
  ⟨.literal, '"' :: (content ++ ['"']), []⟩

/-! ## Texts and tokens of pieces -/

/-- The text that the pieces make up. -/
def textOf (ps : List Piece) : Text :=
  ps.flatMap text

/-- The tokens of the pieces of a text that starts at byte `n`. -/
def tokensFrom (n : Nat) : List Piece → List Token
  | [] => []
  | p :: ps => ⟨p.kind, n, p.lexeme⟩ :: tokensFrom (n + p.text.size) ps

variable {p : Piece} {ps qs : List Piece} {w gap content x : Text} {n i : Nat} {c : Char}

@[simp] theorem textOf_nil : textOf [] = [] := rfl

@[simp] theorem textOf_cons (p : Piece) (ps : List Piece) : textOf (p :: ps) = p.text ++ textOf ps := by
  rw [textOf, List.flatMap_cons, ← textOf]

@[simp] theorem textOf_append (ps qs : List Piece) : textOf (ps ++ qs) = textOf ps ++ textOf qs :=
  List.flatMap_append

theorem tokensFrom_append (n : Nat) (ps qs : List Piece) :
    tokensFrom n (ps ++ qs) = tokensFrom n ps ++ tokensFrom (n + (textOf ps).size) qs := by
  induction ps generalizing n with
  | nil => rfl
  | cons p ps ih =>
      rw [List.cons_append, tokensFrom, tokensFrom, ih, textOf_cons, Text.size_append, Nat.add_assoc,
        List.cons_append]

theorem map_kind_tokensFrom (n : Nat) (ps : List Piece) :
    (tokensFrom n ps).map Token.kind = ps.map Piece.kind := by
  induction ps generalizing n with
  | nil => rfl
  | cons p ps ih => rw [tokensFrom, List.map_cons, List.map_cons, ih]

@[simp] theorem length_tokensFrom (n : Nat) (ps : List Piece) :
    (tokensFrom n ps).length = ps.length := by
  simpa using congrArg List.length (map_kind_tokensFrom n ps)

/-! ## Pieces that are cut off -/

/-- The pieces are scanned as their tokens, whatever stands behind them. -/
def CutOff (ps : List Piece) : Prop :=
  ∀ n x, Token.scanFrom n (textOf ps ++ x) =
    tokensFrom n ps ++ Token.scanFrom (n + (textOf ps).size) x

namespace CutOff

theorem nil : CutOff [] := fun _ _ => rfl

theorem append (h : CutOff ps) (h' : CutOff qs) : CutOff (ps ++ qs) := by
  intro n x
  rw [textOf_append, List.append_assoc, h, h', tokensFrom_append, List.append_assoc,
    Text.size_append, Nat.add_assoc]

theorem flatMap {α : Type} {l : List α} {f : α → List Piece} (h : ∀ a ∈ l, CutOff (f a)) :
    CutOff (l.flatMap f) := by
  induction l with
  | nil => exact nil
  | cons a l ih =>
      rw [List.forall_mem_cons] at h
      rw [List.flatMap_cons]
      exact h.1.append (ih h.2)

/-- What is cut off at its first character is cut off with its gap. -/
theorem of_cut {r : Text} (hblank : Text.isBlank c = false) (hlexeme : p.lexeme = c :: r)
    (hcut : ∀ x, Token.cut c (r ++ (p.gap ++ x)) = (p.kind, r, p.gap ++ x))
    (hgap : ∀ d ∈ p.gap, d ∈ [' ']) : CutOff [p] := by
  intro n x
  rw [textOf_cons, textOf_nil, List.append_nil, text, hlexeme, List.append_assoc, List.cons_append,
    Token.scanFrom_of_cut hblank (hcut x), Token.scanFrom_gap hgap, tokensFrom, tokensFrom, hlexeme,
    Text.size_append, Nat.add_assoc]
  rfl

theorem mark (m : Mark) (hgap : ∀ d ∈ gap, d ∈ [' ']) : CutOff [Piece.mark m gap] := by
  refine of_cut (c := m.char) (r := []) ?_ rfl (fun x => ?_) hgap
  · cases m <;> decide
  · cases m <;> rfl

/-- A quote ends the literal if none stands in its content and no backslash either. -/
theorem string (hquote : '"' ∉ content) (hescape : '\\' ∉ content) :
    CutOff [Piece.string content] := by
  have htail : ∀ x, Token.literalTail '"' false (content ++ '"' :: x) = (content ++ ['"'], x) := by
    intro x
    induction content with
    | nil => rfl
    | cons c content ih =>
        rw [List.mem_cons, not_or] at hquote hescape
        have hc : (!false && c == '"') = false := by simpa using Ne.symm hquote.1
        have hc' : (!false && c == '\\') = false := by simpa using Ne.symm hescape.1
        rw [List.cons_append, Token.literalTail, hc, hc', ih hquote.2 hescape.2]
        rfl
  refine of_cut (c := '"') (r := content ++ ['"']) (by decide) rfl (fun x => ?_) (by simp [Piece.string])
  have hcut : Token.cut '"' (content ++ '"' :: x) =
      (.literal, Token.literalTail '"' false (content ++ '"' :: x)) := rfl
  rw [htail] at hcut
  simpa [Piece.string] using hcut

end CutOff

/-! ## Words -/

/-- Is the text an ASCII identifier? -/
def isIdentifier (w : Text) : Bool :=
  (w.head?.any fun c => c.isAlpha || c == '_') && w.all isWordChar

theorem isWord_char (m : Mark) : Text.isWord m.char = false := by
  cases m <;> decide

/-- An identifier ends before the first character that is in no word. -/
theorem exists_cut_of_isIdentifier (hw : isIdentifier w) :
    ∃ c r, w = c :: r ∧ Text.isBlank c = false ∧
      ∀ x, (∀ d, x.head? = some d → Text.isWord d = false) → Token.cut c (r ++ x) = (.ident, r, x) := by
  rw [isIdentifier, Bool.and_eq_true] at hw
  obtain ⟨hfirst, hall⟩ := hw
  cases w with
  | nil => simp at hfirst
  | cons c r =>
      have hword := List.all_eq_true.1 hall
      have hc := hword c List.mem_cons_self
      have hdigit : c.isDigit = false := by
        have hfirst' : c.isAlpha ∨ c = '_' := by simpa using hfirst
        rcases hfirst' with halpha | rfl
        · exact Token.isDigit_of_isAlpha halpha
        · decide
      refine ⟨c, r, rfl, isBlank_of_isWordChar hc, fun x hx => ?_⟩
      have hr : ∀ d ∈ r, Text.isWord d := fun d hd =>
        isWord_of_isWordChar (hword d (List.mem_cons_of_mem c hd))
      rw [Token.cut, if_pos (isWord_of_isWordChar hc), hdigit, Token.identTail_append_of_isWord hr hx]

namespace CutOff

/-- A space ends a word. -/
theorem word (hw : isIdentifier w) : CutOff [Piece.word w [' ']] := by
  obtain ⟨c, r, rfl, hblank, hcut⟩ := exists_cut_of_isIdentifier hw
  refine of_cut hblank rfl (fun x => hcut _ ?_) (by simp [Piece.word])
  intro d hd
  obtain rfl : ' ' = d := by simpa [Piece.word] using hd
  decide

/-- A punctuation ends a word. -/
theorem word_mark (hw : isIdentifier w) (m : Mark) (hgap : ∀ d ∈ gap, d ∈ [' ']) :
    CutOff [Piece.word w [], Piece.mark m gap] := by
  obtain ⟨c, r, rfl, hblank, hcut⟩ := exists_cut_of_isIdentifier hw
  intro n x
  have hmark := mark m hgap (n + Text.size (c :: r)) x
  have hhead : ∀ d, (textOf [Piece.mark m gap] ++ x).head? = some d → Text.isWord d = false := by
    intro d hd
    obtain rfl : m.char = d := by simpa [text, Piece.mark] using hd
    exact isWord_char m
  have hscan : Token.scanFrom n (c :: (r ++ (textOf [Piece.mark m gap] ++ x))) =
      ⟨.ident, n, c :: r⟩ ::
        Token.scanFrom (n + Text.size (c :: r)) (textOf [Piece.mark m gap] ++ x) :=
    Token.scanFrom_of_cut hblank (hcut _ hhead)
  have htext : textOf [Piece.word (c :: r) [], Piece.mark m gap] ++ x =
      c :: (r ++ (textOf [Piece.mark m gap] ++ x)) := by
    simp [text, Piece.word]
  have hsize : n + (textOf [Piece.word (c :: r) [], Piece.mark m gap]).size =
      n + Text.size (c :: r) + (textOf [Piece.mark m gap]).size := by
    rw [textOf_cons, Text.size_append, ← Nat.add_assoc, text, Piece.word, List.append_nil]
  rw [htext, hscan, hmark, hsize]
  simp [tokensFrom, text, Piece.word]

end CutOff

/-- Pieces that are cut off are all tokens of their text. -/
theorem CutOff.scan_eq (h : CutOff ps) : Token.scan (textOf ps) = tokensFrom 0 ps := by
  have hscan := h 0 []
  rwa [List.append_nil, Token.scanFrom_of_forall_blank (s := []) (by simp), List.append_nil] at hscan

end Piece

/-! ## Streams of pieces -/

/-- The tokens of the stream are the pieces, each at the end of the text before it. -/
structure Shows (s : TokenStream) (ps : List Piece) : Prop where
  source : s.source = Piece.textOf ps
  tokens : s.tokens.toList = Piece.tokensFrom 0 ps

variable {s : TokenStream} {ps front mid back : List Piece} {p q : Piece} {i : Nat} {name : Text}

/-- A text of balanced pieces has a token stream, which shows them. -/
theorem exists_shows (h : Piece.CutOff ps) (hbalanced : Balanced (ps.map (·.kind))) :
    ∃ s, tokenize (Piece.textOf ps) = .ok s ∧ Shows s ps := by
  have hkinds : (Token.scan (Piece.textOf ps)).map (·.kind) = ps.map (·.kind) := by
    rw [h.scan_eq]
    exact Piece.map_kind_tokensFrom 0 ps
  obtain ⟨s, hs⟩ := exists_tokenize_of_balanced (hkinds ▸ hbalanced)
  obtain ⟨pairs, -, rfl⟩ := TokenStream.tokenize_eq_ok.1 hs
  exact ⟨_, hs, rfl, h.scan_eq⟩

namespace Shows

theorem size_eq (h : Shows s ps) : s.size = ps.length := by
  simpa [TokenStream.size] using congrArg List.length h.tokens

theorem token?_eq (h : Shows s ps) (hps : ps = front ++ p :: back) :
    s.token? front.length = some ⟨p.kind, (Piece.textOf front).size, p.lexeme⟩ := by
  have htokens := congrArg (·[front.length]?) h.tokens
  simp only [hps, Piece.tokensFrom_append] at htokens
  rw [List.getElem?_append_right (by simp), Piece.length_tokensFrom, Nat.sub_self] at htokens
  simpa [TokenStream.token?, Piece.tokensFrom] using htokens

/-- The token at an index is the piece there. -/
theorem exists_token (h : Shows s ps) (hi : ps[i]? = some p) :
    ∃ t, s.token? i = some t ∧ t.kind = p.kind ∧ t.lexeme = p.lexeme := by
  obtain ⟨hlt, rfl⟩ := List.getElem?_eq_some_iff.1 hi
  have hsplit : ps = ps.take i ++ ps[i] :: ps.drop (i + 1) := by
    rw [← List.drop_eq_getElem_cons hlt, List.take_append_drop]
  have htoken := h.token?_eq hsplit
  rw [List.length_take, Nat.min_eq_left (Nat.le_of_lt hlt)] at htoken
  exact ⟨_, htoken, rfl, rfl⟩

theorem isIdent_eq (h : Shows s ps) (hi : ps[i]? = some p) (name : Text) :
    s.isIdent i name = (p.kind == .ident && p.lexeme == name) := by
  obtain ⟨t, ht, hkind, hlexeme⟩ := h.exists_token hi
  rw [TokenStream.isIdent, ht, Option.any_some, Token.isIdent, hkind, hlexeme]

theorem isPunct_eq (h : Shows s ps) (hi : ps[i]? = some p) (c : Char) :
    s.isPunct i c = (p.kind == .punct c) := by
  obtain ⟨t, ht, hkind, -⟩ := h.exists_token hi
  rw [TokenStream.isPunct, ht, Option.any_some, Token.isPunct, hkind]

theorem isWord_eq (h : Shows s ps) (hi : ps[i]? = some p) : s.isWord i = (p.kind == .ident) := by
  obtain ⟨t, ht, hkind, -⟩ := h.exists_token hi
  rw [TokenStream.isWord, ht, Option.any_some, Token.isIdent, hkind]

theorem text_eq (h : Shows s ps) (hi : ps[i]? = some p) : s.text i = p.lexeme := by
  obtain ⟨t, ht, -, hlexeme⟩ := h.exists_token hi
  rw [TokenStream.text, ht]
  exact hlexeme

/-- A word that is none of the last pieces is found nowhere behind the first. -/
theorem isIdent_eq_false (h : Shows s (front ++ back))
    (hback : ∀ p ∈ back, p.kind = .ident → p.lexeme ≠ name) (hi : front.length ≤ i) :
    s.isIdent i name = false := by
  refine Bool.eq_false_iff.2 fun hident => ?_
  obtain ⟨p, hp⟩ : ∃ p, back[i - front.length]? = some p := by
    have hlt := TokenStream.lt_size_of_isIdent hident
    rw [h.size_eq, List.length_append] at hlt
    exact ⟨_, List.getElem?_eq_getElem (by omega)⟩
  rw [h.isIdent_eq (by rwa [List.getElem?_append_right hi]), Bool.and_eq_true, beq_iff_eq,
    beq_iff_eq] at hident
  exact hback p (List.mem_of_getElem? hp) hident.1 hident.2

/-- A brace is closed behind the balanced pieces that follow it. -/
theorem closer_eq (h : Shows s (front ++ p :: (mid ++ q :: back))) {source : Text}
    (hs : tokenize source = .ok s) (hp : p.kind = .punct '{') (hmid : Balanced (mid.map (·.kind)))
    (hq : q.kind = .punct '}') : s.closer front.length = some (front.length + 1 + mid.length) := by
  have htokens := h.tokens
  rw [Piece.tokensFrom_append, Piece.tokensFrom, Piece.tokensFrom_append, Piece.tokensFrom] at htokens
  have hcloser := closer_of_balanced hs htokens hp (by rwa [Piece.map_kind_tokensFrom]) hq
  rwa [Piece.length_tokensFrom, Piece.length_tokensFrom] at hcloser

/-- The text between two tokens is that of the pieces between them. -/
theorem textBetween_eq (h : Shows s ps) (hps : ps = front ++ (mid ++ p :: back)) (hmid : mid ≠ []) :
    s.textBetween front.length (front.length + mid.length) = Piece.textOf mid := by
  obtain ⟨m, mid', rfl⟩ := List.exists_cons_of_ne_nil hmid
  have hstart : s.token? front.length = some ⟨m.kind, (Piece.textOf front).size, m.lexeme⟩ :=
    h.token?_eq hps
  have hstop : s.token? (front ++ m :: mid').length =
      some ⟨p.kind, (Piece.textOf (front ++ m :: mid')).size, p.lexeme⟩ :=
    h.token?_eq (show ps = (front ++ m :: mid') ++ p :: back by simp [hps])
  rw [List.length_append] at hstop
  rw [TokenStream.textBetween, TokenStream.offset_of_token? hstart, TokenStream.offset_of_token? hstop,
    h.source, hps, Piece.textOf_append, Piece.textOf_append, Piece.textOf_append, Text.size_append,
    Text.slice_append]

end Shows

end HeaderReflection
