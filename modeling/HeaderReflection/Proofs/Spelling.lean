/-
  HeaderReflection.Proofs.Spelling

  Texts that spell a list of tokens, with gaps between them. Such a text is
  not changed by the passes that drop directives and comments, and respacing it
  changes only its gaps.
-/
import HeaderReflection.Proofs.Segments
import HeaderReflection.Text.Alphanumeric
import HeaderReflection.Text.Blank
import HeaderReflection.Token
import Mathlib.Data.List.Basic

namespace HeaderReflection

/-! ## Words and symbols -/

/-- May the character stand in a word? -/
def isWordChar (c : Char) : Bool :=
  c.isAlphanum || c == '_'

/-- A word of ASCII letters, digits and underscores that starts with a letter. -/
structure Word where
  text : Text
  startsWithLetter : text.head?.any Char.isAlpha
  all_isWordChar : text.all isWordChar
  deriving DecidableEq

/-- The punctuation of a header. -/
inductive Mark
  | openBrace | closeBrace | openParen | closeParen | semicolon | comma | equals
  deriving DecidableEq

/-- The character of a punctuation. -/
def Mark.char : Mark → Char
  | openBrace => '\x7b'
  | closeBrace => '\x7d'
  | openParen => '('
  | closeParen => ')'
  | semicolon => ';'
  | comma => ','
  | equals => '='

/-- A token by what it says. -/
inductive Symbol
  | word (w : Word)
  | colons
  | mark (m : Mark)
  deriving DecidableEq

namespace Symbol

/-- The kind of token that a symbol is read as. -/
def kind : Symbol → TokenKind
  | word _ => .ident
  | colons => .separator
  | mark m => .punct m.char

/-- How a symbol is spelled. -/
def text : Symbol → Text
  | word w => w.text
  | colons => "::".toList
  | mark m => [m.char]

/-- Is the symbol a word? -/
def isWord : Symbol → Bool
  | word _ => true
  | _ => false

/-- Is the symbol a punctuation? -/
def isMark : Symbol → Bool
  | mark _ => true
  | _ => false

/-- A symbol that is no punctuation is not read as one. -/
theorem kind_ne_of_isMark {t : Symbol} (h : t.isMark = false) (c : Char) : t.kind ≠ .punct c := by
  cases t with
  | word => simp [kind]
  | colons => simp [kind]
  | mark => simp [isMark] at h

/-- Is the symbol the word with the given text? -/
def isNamed (t : Symbol) (name : Text) : Bool :=
  match t with
  | word w => w.text == name
  | _ => false

end Symbol

/-! ## Characters of symbols -/

section Characters

variable {c : Char} {t : Symbol} {m : Mark} {w : Word}

theorem isAlpha_iff : c.isAlpha ↔
    (65 ≤ c.toNat ∧ c.toNat ≤ 90) ∨ 97 ≤ c.toNat ∧ c.toNat ≤ 122 := by
  change (decide (c.val ≥ 'A'.val ∧ c.val ≤ 'Z'.val) ||
    (decide (c.val ≥ 'a'.val) && decide (c.val ≤ 'z'.val))) = true ↔ _
  simp only [Bool.or_eq_true, Bool.and_eq_true, decide_eq_true_eq, ge_iff_le,
    UInt32.le_iff_toNat_le]
  exact Iff.rfl

theorem isDigit_iff : c.isDigit ↔ 48 ≤ c.toNat ∧ c.toNat ≤ 57 := by
  change (decide (c.val ≥ '0'.val) && decide (c.val ≤ '9'.val)) = true ↔ _
  simp only [Bool.and_eq_true, decide_eq_true_eq, ge_iff_le, UInt32.le_iff_toNat_le]
  exact Iff.rfl

/-- The characters of words are found from the digit nought to the letter z. -/
theorem toNat_lt_of_isWordChar (h : isWordChar c) : 47 < c.toNat ∧ c.toNat < 123 := by
  have hcases : (c.isAlpha ∨ c.isDigit) ∨ c = '_' := by
    simpa [isWordChar, Char.isAlphanum] using h
  rcases hcases with (h | h) | rfl
  · have := isAlpha_iff.1 h
    omega
  · have := isDigit_iff.1 h
    omega
  · decide

/-- A character of a word is one of an identifier. -/
theorem isWord_of_isWordChar (h : isWordChar c) : Text.isWord c := by
  have hlt : c.toNat < 128 := by
    have := (toNat_lt_of_isWordChar h).2
    omega
  rw [Text.isWord, Text.isAlphanumeric, if_pos hlt]
  exact h

theorem isBlank_of_isWordChar (h : isWordChar c) : Text.isBlank c = false := by
  have hc := toNat_lt_of_isWordChar h
  simp only [Text.isBlank, Bool.or_eq_false_iff, Bool.and_eq_false_iff, decide_eq_false_iff_not,
    beq_eq_false_iff_ne]
  omega

/-- A word starts with a letter. -/
theorem Word.exists_cons (w : Word) :
    ∃ c r, w.text = c :: r ∧ c.isAlpha ∧ ∀ d ∈ c :: r, isWordChar d := by
  obtain ⟨text, hletter, hall⟩ := w
  cases text with
  | nil => simp at hletter
  | cons c r => exact ⟨c, r, rfl, by simpa using hletter, List.all_eq_true.1 hall⟩

theorem Symbol.isWordChar_of_mem_text (ht : t.isWord) (hc : c ∈ t.text) : isWordChar c := by
  cases t with
  | word w => exact List.all_eq_true.1 w.all_isWordChar c hc
  | colons => simp [isWord] at ht
  | mark => simp [isWord] at ht

/-- No word begins or ends like what may take the space beside it. -/
theorem not_mem_closers (h : isWordChar c) : c ∉ [' ', '\x7b', '\x7d', ';'] := by
  intro hc
  have : [' ', '\x7b', '\x7d', ';'].all fun d => !isWordChar d := by decide
  simpa [h] using List.all_eq_true.1 this c hc

/-- The characters that stand in no symbol. -/
def strangers : List Char := [' ', '\t', '\r', '\n', '#', '/']

theorem not_mem_strangers (h : isWordChar c) : c ∉ strangers := by
  intro hc
  have : strangers.all fun d => !isWordChar d := by decide
  simpa [h] using List.all_eq_true.1 this c hc

/-- A symbol holds no blank, and nothing that starts a directive or a comment. -/
theorem Symbol.isBlank_of_mem_text (hc : c ∈ t.text) :
    Text.isBlank c = false ∧ c ∉ strangers := by
  cases t with
  | word w =>
      obtain ⟨d, r, hw, -, hall⟩ := w.exists_cons
      have hword : isWordChar c := hall c (by rwa [← hw])
      exact ⟨isBlank_of_isWordChar hword, not_mem_strangers hword⟩
  | colons =>
      obtain rfl : c = ':' := by simpa [text] using hc
      decide
  | mark m =>
      obtain rfl : c = m.char := by simpa [text] using hc
      cases m <;> decide

theorem Symbol.text_ne_nil (t : Symbol) : t.text ≠ [] := by
  cases t with
  | word w =>
      obtain ⟨c, r, hw, -⟩ := w.exists_cons
      simp [text, hw]
  | colons => simp [text]
  | mark m => simp [text]

end Characters

/-! ## Spelled texts -/

/-- The gap keeps two words apart, and none stands beside two colons. -/
structure Separates (t : Symbol) (next : Option Symbol) (gap : Text) : Prop where
  tight : t = .colons ∨ next = some .colons → gap = []
  apart : t.isWord → next.any Symbol.isWord → gap ≠ []

/-- The text spells the symbols, each with a gap of the given blanks behind it. -/
inductive Spells (blanks : List Char) : List Symbol → Text → Prop
  | nil : Spells blanks [] []
  | cons {t : Symbol} {ts : List Symbol} {gap text : Text} (hgap : ∀ c ∈ gap, c ∈ blanks)
      (hsep : Separates t ts.head? gap) (h : Spells blanks ts text) :
      Spells blanks (t :: ts) (t.text ++ (gap ++ text))

/-- The blanks that a header is laid out with. -/
def layout : List Char := [' ', '\t', '\r', '\n']

/-- The symbols with the same gap between any two of them, but beside two colons. -/
def printed (gap : Text) : List Symbol → Text
  | [] => []
  | t :: ts =>
      t.text ++
        ((if t = .colons ∨ ts.head? = some .colons then [] else gap) ++ printed gap ts)

/-- The printed symbols are spelled if the gap is not empty: two words then never touch. -/
theorem spells_printed {blanks : List Char} {gap : Text} (hne : gap ≠ [])
    (hgap : ∀ c ∈ gap, c ∈ blanks) (ts : List Symbol) : Spells blanks ts (printed gap ts) := by
  induction ts with
  | nil => exact Spells.nil
  | cons t ts ih =>
      by_cases htight : t = .colons ∨ ts.head? = some .colons
      · rw [printed, if_pos htight]
        refine Spells.cons (by simp) ⟨fun _ => rfl, fun ht hnext => ?_⟩ ih
        rcases htight with rfl | htight
        · simp [Symbol.isWord] at ht
        · simp [htight, Symbol.isWord] at hnext
      · rw [printed, if_neg htight]
        exact Spells.cons hgap ⟨fun ht => absurd ht htight, fun _ _ => hne⟩ ih

namespace Spells

open NormalForm

variable {blanks : List Char} {p q : Char} {t : Symbol} {ts us : List Symbol} {s s' gap w : Text}

theorem eq_nil (h : Spells blanks [] s) : s = [] := by
  cases h
  rfl

/-- A character of a spelled text is one of a gap or one of a symbol. -/
theorem mem_or (h : Spells blanks ts s) {c : Char} (hc : c ∈ s) :
    c ∈ blanks ∨ ∃ t ∈ ts, c ∈ t.text := by
  induction h with
  | nil => simp at hc
  | cons hgap hsep h ih =>
      rcases List.mem_append.1 hc with hc | hc
      · exact Or.inr ⟨_, List.mem_cons_self, hc⟩
      rcases List.mem_append.1 hc with hc | hc
      · exact Or.inl (hgap c hc)
      · rcases ih hc with hc | ⟨t, ht, hc⟩
        · exact Or.inl hc
        · exact Or.inr ⟨t, List.mem_cons_of_mem _ ht, hc⟩

/-- The first character of a spelled text is one of its first symbol. -/
theorem exists_of_head? (h : Spells blanks ts s) {c : Char} (hc : s.head? = some c) :
    ∃ t, ts.head? = some t ∧ c ∈ t.text := by
  cases h with
  | nil => simp at hc
  | @cons t ts gap text hgap hsep h =>
      rw [List.head?_append_of_ne_nil _ t.text_ne_nil] at hc
      exact ⟨t, rfl, List.mem_of_head? hc⟩

/-! ## Respacing a spelled text -/

theorem flatten (h : Spells layout ts s) : Spells [' '] ts (flatten s) := by
  induction h with
  | nil => exact nil
  | @cons t ts gap text hgap hsep h ih =>
      have htext : NormalForm.flatten t.text = t.text := by
        rw [NormalForm.flatten]
        conv_rhs => rw [← List.map_id t.text]
        refine List.map_congr_left fun c hc => ?_
        have := (Symbol.isBlank_of_mem_text hc).2
        simp only [strangers, List.mem_cons, List.not_mem_nil, or_false, not_or] at this
        simp [this]
      have hblank : ∀ c ∈ NormalForm.flatten gap, c ∈ [' '] := by
        intro c hc
        obtain ⟨d, hd, rfl⟩ := List.mem_map.1 hc
        have := hgap d hd
        simp only [layout, List.mem_cons, List.not_mem_nil, or_false] at this
        rcases this with rfl | rfl | rfl | rfl <;> simp
      rw [NormalForm.flatten, List.map_append, List.map_append, ← NormalForm.flatten,
        ← NormalForm.flatten, ← NormalForm.flatten, htext]
      refine cons hblank ⟨fun ht => ?_, fun ht hnext => ?_⟩ ih
      · rw [hsep.tight ht]
        rfl
      · have hne := hsep.apart ht hnext
        simpa [NormalForm.flatten] using hne

/-- A part without spaces is kept. -/
theorem thins_append (h : Thins p (w ++ s) s') (hw : ' ' ∉ w) :
    ∃ x, s' = w ++ x ∧ Thins (w.getLastD p) s x := by
  induction w generalizing p s' with
  | nil => exact ⟨s', rfl, h⟩
  | cons c w ih =>
      rw [List.mem_cons, not_or] at hw
      cases h with
      | keep h =>
          obtain ⟨x, rfl, hx⟩ := ih h hw.2
          exact ⟨x, rfl, by rwa [List.getLastD_cons]⟩
      | dropAfter => exact absurd rfl hw.1
      | dropBefore => exact absurd rfl hw.1

theorem head?_of_thins (h : Thins p s s') (hs : s.head? ≠ some ' ') : s.head? = s'.head? := by
  cases h with
  | nil => rfl
  | keep => rfl
  | dropAfter => exact absurd rfl hs
  | dropBefore => exact absurd rfl hs

/-- Of a gap spaces are kept. None is if there was none, and none may be behind or before a brace or
behind a semicolon. -/
theorem thins_gap (h : Thins q (gap ++ s) s') (hgap : ∀ c ∈ gap, c ∈ [' '])
    (hs : s.head? ≠ some ' ') :
    ∃ gap' x r, s' = gap' ++ x ∧ Thins r s x ∧ (∀ c ∈ gap', c ∈ [' ']) ∧
      (gap = [] → gap' = []) ∧
      (gap' = [] → gap = [] ∨ q ∈ [' ', '\x7b', '\x7d', ';'] ∨
        ∃ c ∈ ['\x7b', '\x7d'], s.head? = some c) := by
  induction gap generalizing q s' with
  | nil => exact ⟨[], s', q, rfl, h, by simp, by simp, by simp⟩
  | cons c gap ih =>
      rw [List.forall_mem_cons] at hgap
      obtain rfl : c = ' ' := by simpa using hgap.1
      cases h with
      | keep h =>
          obtain ⟨gap', x, r, rfl, hx, hgap', -, -⟩ := ih h hgap.2
          exact ⟨' ' :: gap', x, r, rfl, hx, by simpa using hgap', by simp, by simp⟩
      | dropAfter hq h =>
          obtain ⟨gap', x, r, rfl, hx, hgap', -, -⟩ := ih h hgap.2
          exact ⟨gap', x, r, rfl, hx, hgap', by simp, fun _ => Or.inr (Or.inl hq)⟩
      | @dropBefore _ d _ s' hd h =>
          obtain ⟨gap', x, r, heq, hx, hgap', -, -⟩ := ih h hgap.2
          refine ⟨gap', x, r, heq, hx, hgap', by simp, ?_⟩
          rintro rfl
          rw [head?_of_thins hx hs, ← List.nil_append x, ← heq]
          exact Or.inr (Or.inr ⟨d, hd, rfl⟩)

/-- What is spelled with spaces is spelled without some of them, if what is left out is what respacing
leaves out. -/
theorem thins (h : Spells [' '] ts s) (hs : Thins p s s') : Spells [' '] ts s' := by
  induction h generalizing p s' with
  | nil =>
      cases hs
      exact nil
  | @cons t ts gap text hgap hsep h ih =>
      have hspace : ' ' ∉ t.text := fun hc => (Symbol.isBlank_of_mem_text hc).2 (by simp [strangers])
      have hhead : text.head? ≠ some ' ' := by
        intro hc
        obtain ⟨u, -, hu⟩ := h.exists_of_head? hc
        exact (Symbol.isBlank_of_mem_text hu).2 (by simp [strangers])
      obtain ⟨x, rfl, hx⟩ := thins_append hs hspace
      obtain ⟨gap', y, r, rfl, hy, hgap', hnil, hlost⟩ := thins_gap hx hgap hhead
      refine cons hgap' ⟨fun ht => hnil (hsep.tight ht), fun ht hnext hgap => ?_⟩ (ih hy)
      -- A space between two words is kept, as no word ends or begins like a brace.
      rcases hlost hgap with hgap | hlast | ⟨c, hc, hc'⟩
      · exact hsep.apart ht hnext hgap
      · have hmem : t.text.getLastD p ∈ t.text := by
          rw [List.getLastD_eq_getLast?, List.getLast?_eq_some_getLast t.text_ne_nil]
          exact List.getLast_mem _
        exact not_mem_closers (Symbol.isWordChar_of_mem_text ht hmem) hlast
      · obtain ⟨u, hu, hmem⟩ := h.exists_of_head? hc'
        rw [hu] at hnext
        refine not_mem_closers (Symbol.isWordChar_of_mem_text hnext hmem) ?_
        simp only [List.mem_cons, List.not_mem_nil, or_false] at hc ⊢
        tauto

/-- The normal form of a spelled text spells the same symbols with spaces. -/
theorem normalize (h : Spells layout ts s) :
    ∃ s', HeaderReflection.normalize s = .ok s' ∧ Spells [' '] ts s' := by
  have hstranger : ∀ c ∈ ['#', '/'], c ∉ s := by
    intro c hc hs
    rcases h.mem_or hs with hlayout | ⟨t, -, ht⟩
    · have : ∀ d ∈ ['#', '/'], d ∉ layout := by simp [layout]
      exact this c hc hlayout
    · have : ∀ d ∈ ['#', '/'], d ∈ strangers := by simp [strangers]
      exact (Symbol.isBlank_of_mem_text ht).2 (this c hc)
  have hreduces : Reduces s s := by
    simpa using Reduces.nil.plain (hstranger '#' (by simp)) (hstranger '/' (by simp))
  refine ⟨respace s, hreduces.normalize_eq, ?_⟩
  exact respace_induction h.flatten fun p s s' hs h => h.thins hs

end Spells

end HeaderReflection
