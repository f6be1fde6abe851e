/-
  HeaderReflection.Proofs.TokenShapes

  Tokens by what they are, without their places, and what the look-ups of a
  stream find where tokens of given shapes stand.
-/
import HeaderReflection.Declaration.Head
import HeaderReflection.Proofs.Stream

namespace HeaderReflection

/-! ## Shapes -/

/-- A token by its kind and its characters. -/
abbrev Shape := TokenKind × Text

/-- A token without its place. -/
def Token.shape (t : Token) : Shape :=
  (t.kind, t.lexeme)

namespace Shape

/-- An identifier or a keyword. -/
def word (w : Text) : Shape :=
  (.ident, w)

/-- The two colons between the parts of a name. -/
def colons : Shape :=
  (.separator, "::".toList)

/-- A punctuation of one character. -/
def punct (c : Char) : Shape :=
  (.punct c, [c])

/-- Does a token of the shape end a declaration head? -/
def endsHead (p : Shape) : Bool :=
  p.1 == .punct '\x7b' || p.1 == .punct ';' || p.1 == .punct '\x7d'

end Shape

variable {s : TokenStream} {i k : Nat} {p : Shape} {ps qs : List Shape}

/-! ## Look-ups at one token -/

/-- The token at index `i` has the given shape. -/
def TokenStream.HasShape (s : TokenStream) (i : Nat) (p : Shape) : Prop :=
  (s.token? i).map Token.shape = some p

instance : Decidable (s.HasShape i p) :=
  inferInstanceAs (Decidable (_ = _))

namespace TokenStream.HasShape

/-- Where a shape is met there is a token. -/
theorem exists_token (h : s.HasShape i p) :
    ∃ t, s.token? i = some t ∧ t.kind = p.1 ∧ t.lexeme = p.2 := by
  obtain ⟨t, ht, rfl⟩ := Option.map_eq_some_iff.1 h
  exact ⟨t, ht, rfl, rfl⟩

theorem isPunct_eq (h : s.HasShape i p) (c : Char) : s.isPunct i c = (p.1 == .punct c) := by
  obtain ⟨t, ht, hkind, -⟩ := h.exists_token
  rw [isPunct, ht, Option.any_some, Token.isPunct, hkind]

theorem isIdent_eq (h : s.HasShape i p) (name : Text) :
    s.isIdent i name = (p.1 == .ident && p.2 == name) := by
  obtain ⟨t, ht, hkind, hlexeme⟩ := h.exists_token
  rw [isIdent, ht, Option.any_some, Token.isIdent, hkind, hlexeme]

theorem isWord_eq (h : s.HasShape i p) : s.isWord i = (p.1 == .ident) := by
  obtain ⟨t, ht, hkind, -⟩ := h.exists_token
  rw [isWord, ht, Option.any_some, Token.isIdent, hkind]

theorem isSeparator_eq (h : s.HasShape i p) : s.isSeparator i = (p.1 == .separator) := by
  obtain ⟨t, ht, hkind, -⟩ := h.exists_token
  rw [isSeparator, ht, Option.any_some, hkind]

theorem text_eq (h : s.HasShape i p) : s.text i = p.2 := by
  obtain ⟨t, ht, -, hlexeme⟩ := h.exists_token
  rw [text, ht]
  exact hlexeme

/-- Whether a token ends a head is seen from its shape. -/
theorem endsHead_eq (h : s.HasShape i p) : DeclHead.endsHead s i = p.endsHead := by
  rw [DeclHead.endsHead, h.isPunct_eq, h.isPunct_eq, h.isPunct_eq, Shape.endsHead]

end TokenStream.HasShape

/-- A word is known by its characters. -/
theorem TokenStream.hasShape_of_isWord (h : s.isWord i) : s.HasShape i (.word (s.text i)) := by
  obtain ⟨t, ht, hident⟩ := (Option.any_eq_true ..).1 h
  rw [HasShape, text, ht, Option.map_some]
  simpa [Token.shape, Shape.word, Token.isIdent] using hident

/-- The characters of a token are part of its shape. -/
theorem TokenStream.text_congr {s' : TokenStream}
    (h : (s'.token? i).map Token.shape = (s.token? i).map Token.shape) : s'.text i = s.text i := by
  rw [text, text]
  cases ht : s.token? i with
  | none =>
      rw [ht] at h
      rw [Option.map_eq_none_iff.1 h]
  | some t =>
      rw [ht] at h
      obtain ⟨u, hu, hshape⟩ := Option.map_eq_some_iff.1 h
      rw [hu]
      exact congrArg Prod.snd hshape

/-! ## Tokens in a row -/

/-- The tokens from index `i` on have the given shapes. -/
def TokenStream.ShapesAt (s : TokenStream) (i : Nat) (ps : List Shape) : Prop :=
  ∀ k (hk : k < ps.length), s.HasShape (i + k) ps[k]

instance : Decidable (s.ShapesAt i ps) :=
  inferInstanceAs (Decidable (∀ k (hk : k < ps.length), s.HasShape (i + k) ps[k]))

namespace TokenStream.ShapesAt

theorem head (h : s.ShapesAt i (p :: ps)) : s.HasShape i p :=
  h 0 (Nat.zero_lt_succ _)

theorem left (h : s.ShapesAt i (ps ++ qs)) : s.ShapesAt i ps := by
  intro k hk
  have := h k (by rw [List.length_append]; omega)
  rwa [List.getElem_append_left hk] at this

theorem right (h : s.ShapesAt i (ps ++ qs)) : s.ShapesAt (i + ps.length) qs := by
  intro k hk
  have := h (ps.length + k) (by rw [List.length_append]; omega)
  rw [List.getElem_append_right (by omega)] at this
  simpa only [Nat.add_sub_cancel_left, Nat.add_assoc] using this

theorem tail (h : s.ShapesAt i (p :: ps)) : s.ShapesAt (i + 1) ps := by
  have hrow : s.ShapesAt i ([p] ++ ps) := h
  exact hrow.right

theorem nil : s.ShapesAt i [] :=
  fun k hk => absurd hk (Nat.not_lt_zero k)

theorem cons (h : s.HasShape i p) (h' : s.ShapesAt (i + 1) ps) : s.ShapesAt i (p :: ps) := by
  intro k hk
  cases k with
  | zero => exact h
  | succ k =>
      have := h' k (Nat.lt_of_succ_lt_succ hk)
      rwa [Nat.add_assoc, Nat.add_comm 1] at this

theorem append (h : s.ShapesAt i ps) (h' : s.ShapesAt (i + ps.length) qs) :
    s.ShapesAt i (ps ++ qs) := by
  induction ps generalizing i with
  | nil => exact h'
  | cons p ps ih =>
      refine cons h.head (ih h.tail ?_)
      rwa [Nat.add_right_comm]

/-- The last shape is met at the last of the places. -/
theorem last (h : s.ShapesAt i ps) (hp : ps.getLast? = some p) :
    s.HasShape (i + ps.length - 1) p := by
  rw [List.getLast?_eq_getElem?] at hp
  obtain ⟨hlt, rfl⟩ := List.getElem?_eq_some_iff.1 hp
  have hindex : i + (ps.length - 1) = i + ps.length - 1 := by omega
  exact hindex ▸ h (ps.length - 1) hlt

/-- Every token of the row has one of the shapes. -/
theorem exists_mem (h : s.ShapesAt i ps) (hik : i ≤ k) (hk : k < i + ps.length) :
    ∃ p ∈ ps, s.HasShape k p := by
  obtain ⟨d, rfl⟩ := Nat.exists_eq_add_of_le hik
  have hd : d < ps.length := by omega
  exact ⟨ps[d], List.getElem_mem hd, h d hd⟩

/-- A word that is not in the row is none of its tokens. -/
theorem isIdent_eq_false {w : Text} (h : s.ShapesAt i ps) (hw : Shape.word w ∉ ps) (hik : i ≤ k)
    (hk : k < i + ps.length) : s.isIdent k w = false := by
  obtain ⟨p, hp, hshape⟩ := h.exists_mem hik hk
  rw [hshape.isIdent_eq]
  by_contra heq
  simp only [Bool.not_eq_false, Bool.and_eq_true, beq_iff_eq] at heq
  obtain rfl : p = Shape.word w := Prod.ext heq.1 heq.2
  exact hw hp

/-- Every shape of the row is that of one of the tokens. -/
theorem exists_index (h : s.ShapesAt i ps) (hp : p ∈ ps) :
    ∃ k, i ≤ k ∧ k < i + ps.length ∧ s.HasShape k p := by
  obtain ⟨d, hd, rfl⟩ := List.getElem_of_mem hp
  exact ⟨i + d, Nat.le_add_right i d, by omega, h d hd⟩

/-- The characters of the tokens are those of the shapes. -/
theorem map_text (h : s.ShapesAt i ps) : (List.range' i ps.length).map s.text = ps.map (·.2) := by
  induction ps generalizing i with
  | nil => rfl
  | cons p ps ih =>
      rw [List.length_cons, List.range'_succ, List.map_cons, List.map_cons, h.head.text_eq,
        ih h.tail]

end TokenStream.ShapesAt

end HeaderReflection
