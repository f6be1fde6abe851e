/-
  HeaderReflection.Proofs.AttributedHeads

  Heads of declarations with attributes and export macros ahead of the name: a
  grammar for them, where their parts stand in a stream, and where the searches
  for the body, for the clause and for both ends of the name stop.
-/
import HeaderReflection.Proofs.Head
import HeaderReflection.Proofs.TokenShapes

namespace HeaderReflection

/-! ## Heads with attributes -/

/-- The parentheses and square brackets. -/
def bracketKinds : List TokenKind :=
  [.punct '(', .punct ')', .punct '[', .punct ']']

/-- Any tokens that end no head, with parentheses and square brackets in pairs. -/
inductive Enclosed : List Shape → Prop
  | nil : Enclosed []
  | token {p : Shape} {ps : List Shape} (not_bracket : p.1 ∉ bracketKinds)
      (stays : p.endsHead = false) : Enclosed ps → Enclosed (p :: ps)
  | parens {ps qs : List Shape} : Enclosed ps → Enclosed qs →
      Enclosed (.punct '(' :: (ps ++ .punct ')' :: qs))
  | squares {ps qs : List Shape} : Enclosed ps → Enclosed qs →
      Enclosed (.punct '[' :: (ps ++ .punct ']' :: qs))

/-- What stands between the keyword of a declaration and its name: words, attributes in double square
brackets and macros with arguments, in any order. -/
inductive AttributePart : List Shape → Prop
  | nil : AttributePart []
  | word (w : Text) {ps : List Shape} : AttributePart ps → AttributePart (.word w :: ps)
  | squares {inner ps : List Shape} : Enclosed inner → AttributePart ps →
      AttributePart (.punct '[' :: .punct '[' :: (inner ++ .punct ']' :: .punct ']' :: ps))
  | call (w : Text) {inner ps : List Shape} : Enclosed inner → AttributePart ps →
      AttributePart (.word w :: .punct '(' :: (inner ++ .punct ')' :: ps))

/-- A name by its parts. -/
structure NameParts where
  /-- The parts before the last one. -/
  outer : List Text
  last : Text

namespace NameParts

/-- The parts but the last one, each with the separator behind it. -/
def outerShapes (outer : List Text) : List Shape :=
  outer.flatMap fun w => [.word w, .colons]

/-- The tokens of a name. -/
def shapes (n : NameParts) : List Shape :=
  outerShapes n.outer ++ [.word n.last]

/-- How the name is written where it is reported. -/
def text (n : NameParts) : Text :=
  Text.joinWith "::".toList (n.outer ++ [n.last])

end NameParts

/-- The words that make up the keyword of a declaration. -/
def DeclKind.keywords : DeclKind → List (List Text)
  | .struct => [["struct".toList], ["class".toList]]
  | .enum => [["enum".toList, "class".toList], ["enum".toList, "struct".toList]]

/-- The head of a marked declaration with attributes. -/
structure AttributedHead where
  kind : DeclKind
  /-- Does the marker stand right before the keyword, and not right behind it? -/
  markerFirst : Bool
  keyword : List Text
  attributes : List Shape
  name : NameParts
  isFinal : Bool
  /-- What follows the colon of the base types or of the underlying type. -/
  clause : Option (List Shape)
  keyword_mem : keyword ∈ kind.keywords
  attributePart : AttributePart attributes
  clause_stays : ∀ ps ∈ clause, ∀ p ∈ ps, p.endsHead = false

namespace AttributedHead

variable (h : AttributedHead) (base : Nat)

/-! ### Its tokens -/

/-- Marker and keyword. -/
def lead : List Shape :=
  if h.markerFirst then .word h.kind.marker :: h.keyword.map .word
  else h.keyword.map .word ++ [.word h.kind.marker]

/-- The word that forbids a derived type, if the head has it. -/
def finalShapes : List Shape :=
  if h.isFinal then [.word "final".toList] else []

/-- The colon and what follows it, if the head has a clause. -/
def clauseShapes : List Shape :=
  match h.clause with
  | none => []
  | some ps => .punct ':' :: ps

/-- What stands before the clause. -/
def front : List Shape :=
  h.lead ++ (h.attributes ++ (h.name.shapes ++ h.finalShapes))

/-- The head up to the brace that opens the body. -/
def shapes : List Shape :=
  h.front ++ (h.clauseShapes ++ [.punct '\x7b'])

/-! ### Their places, if the head starts at index `base` -/

/-- Where the marker stands. -/
def markerAt : Nat :=
  if h.markerFirst then base else base + h.keyword.length

/-- Where the attributes start. -/
def attributesAt : Nat :=
  base + h.lead.length

/-- Where the name starts. -/
def nameAt : Nat :=
  h.attributesAt base + h.attributes.length

/-- Where the last part of the name stands. -/
def lastAt : Nat :=
  h.nameAt base + 2 * h.name.outer.length

/-- Where the colon of the clause stands, or the brace if there is none. -/
def clauseAt : Nat :=
  base + h.front.length

/-- Where the brace stands that opens the body. -/
def bodyAt : Nat :=
  h.clauseAt base + h.clauseShapes.length

/-- What is to be read of the head: its name, where it starts, and where the body opens. -/
def declHead : DeclHead :=
  ⟨h.nameAt base, h.name.text, h.bodyAt base⟩

/-- The keyword of a struct is not a part of that of an enum. -/
def KeywordStandsAlone (s : TokenStream) : Prop :=
  h.kind = .struct → h.markerFirst = false → 0 < base → s.isIdent (base - 1) "enum".toList = false

/-- The name is found: no colon stands in the attributes, and the name does not end with a word that
may follow a name. -/
def NameStandsOut : Prop :=
  (∀ p ∈ h.attributes, p.1 ≠ .punct ':') ∧ h.name.last ≠ "final".toList ∧
    h.name.last ≠ h.kind.marker

end AttributedHead

/-! ## What the parts of a head hold -/

variable {ps : List Shape} {p : Shape}

theorem Shape.endsHead_of_not_punct (hp : ∀ c, p.1 ≠ .punct c) : p.endsHead = false := by
  simp [endsHead, hp]

/-- What stands in brackets does not end a head. -/
theorem Enclosed.endsHead_eq_false (h : Enclosed ps) : ∀ p ∈ ps, p.endsHead = false := by
  induction h with
  | nil => exact List.forall_mem_nil _
  | token _ hstays _ ih => exact List.forall_mem_cons.2 ⟨hstays, ih⟩
  | parens _ _ ih₁ ih₂ =>
      simp only [List.forall_mem_cons, List.forall_mem_append]
      exact ⟨rfl, ih₁, rfl, ih₂⟩
  | squares _ _ ih₁ ih₂ =>
      simp only [List.forall_mem_cons, List.forall_mem_append]
      exact ⟨rfl, ih₁, rfl, ih₂⟩

namespace AttributePart

theorem endsHead_eq_false (h : AttributePart ps) : ∀ p ∈ ps, p.endsHead = false := by
  induction h with
  | nil => exact List.forall_mem_nil _
  | word _ _ ih => exact List.forall_mem_cons.2 ⟨rfl, ih⟩
  | squares hinner _ ih =>
      simp only [List.forall_mem_cons, List.forall_mem_append]
      exact ⟨rfl, rfl, hinner.endsHead_eq_false, rfl, rfl, ih⟩
  | call _ hinner _ ih =>
      simp only [List.forall_mem_cons, List.forall_mem_append]
      exact ⟨rfl, rfl, hinner.endsHead_eq_false, rfl, ih⟩

theorem getLast?_cons_ne_separator (hp : p.1 ≠ .separator)
    (hps : ∀ q, ps.getLast? = some q → q.1 ≠ .separator) :
    ∀ q, (p :: ps).getLast? = some q → q.1 ≠ .separator := by
  intro q hq
  rw [List.getLast?_cons, Option.some.injEq] at hq
  cases hlast : ps.getLast? with
  | none =>
      rw [hlast, Option.getD_none] at hq
      exact hq ▸ hp
  | some r =>
      rw [hlast, Option.getD_some] at hq
      exact hps q (hq ▸ hlast)

/-- Attributes end with a word or a bracket, so no name goes on into them. -/
theorem getLast?_ne_separator (h : AttributePart ps) :
    ∀ p, ps.getLast? = some p → p.1 ≠ .separator := by
  have hpunct : ∀ c, (Shape.punct c).1 ≠ .separator := by
    intro c
    simp [Shape.punct]
  induction h with
  | nil =>
      intro p hp
      simp at hp
  | word w _ ih => exact getLast?_cons_ne_separator (by simp [Shape.word]) ih
  | @squares inner ps _ _ ih =>
      have hclose := getLast?_cons_ne_separator (hpunct ']')
        (getLast?_cons_ne_separator (hpunct ']') ih)
      intro p hp
      rw [← List.cons_append, ← List.cons_append,
        List.getLast?_append_of_ne_nil _ (List.cons_ne_nil _ _)] at hp
      exact hclose p hp
  | @call w inner ps _ _ ih =>
      have hclose := getLast?_cons_ne_separator (hpunct ')') ih
      intro p hp
      rw [← List.cons_append, ← List.cons_append,
        List.getLast?_append_of_ne_nil _ (List.cons_ne_nil _ _)] at hp
      exact hclose p hp

end AttributePart

namespace NameParts

variable {n : NameParts} {outer outer' : List Text} {w : Text}

theorem length_outerShapes (outer : List Text) :
    (outerShapes outer).length = 2 * outer.length := by
  induction outer with
  | nil => rfl
  | cons w outer ih =>
      show (outerShapes outer).length + 2 = 2 * (outer.length + 1)
      omega

theorem outerShapes_append (outer outer' : List Text) :
    outerShapes (outer ++ outer') = outerShapes outer ++ outerShapes outer' :=
  List.flatMap_append

theorem word_mem_outerShapes : Shape.word w ∈ outerShapes outer ↔ w ∈ outer := by
  simp [outerShapes, Shape.word, Shape.colons]

theorem getLast?_outerShapes (h : outer ≠ []) :
    (outerShapes outer).getLast? = some .colons := by
  obtain ⟨ws, w, rfl⟩ := (List.eq_nil_or_concat outer).resolve_left h
  simp [outerShapes]

theorem length_shapes (n : NameParts) : n.shapes.length = 2 * n.outer.length + 1 := by
  rw [shapes, List.length_append, length_outerShapes, List.length_singleton]

/-- A name has no punctuation but its separators. -/
theorem not_punct_of_mem_shapes (hp : p ∈ n.shapes) (c : Char) : p.1 ≠ .punct c := by
  simp only [shapes, outerShapes, List.mem_append, List.mem_flatMap, List.mem_cons,
    List.not_mem_nil, or_false] at hp
  rcases hp with ⟨w, -, rfl | rfl⟩ | rfl
  · simp [Shape.word]
  · simp [Shape.colons]
  · simp [Shape.word]

/-- The characters of a name's tokens are the name. -/
theorem flatten_shapes (n : NameParts) : (n.shapes.map (·.2)).flatten = n.text := by
  obtain ⟨outer, last⟩ := n
  induction outer with
  | nil => simp [shapes, outerShapes, text, Text.joinWith, Shape.word]
  | cons w outer ih =>
      have hne : outer ++ [last] ≠ [] := by simp
      obtain ⟨v, vs, hvs⟩ := List.exists_cons_of_ne_nil hne
      have htext : text ⟨w :: outer, last⟩ = w ++ ("::".toList ++ text ⟨outer, last⟩) := by
        show Text.joinWith _ (w :: (outer ++ [last])) = w ++ (_ ++ Text.joinWith _ (outer ++ [last]))
        rw [hvs, Text.joinWith, List.intercalate_cons_cons, List.append_assoc]
        rfl
      rw [htext, ← ih]
      rfl

end NameParts

namespace AttributedHead

variable {h : AttributedHead} {s : TokenStream} {base start k : Nat}

/-- Marker and keyword are words. -/
theorem isWord_of_mem_lead (hp : p ∈ h.lead) : p.1 = .ident := by
  have hword : ∀ ws : List Text, ∀ q ∈ ws.map Shape.word, q.1 = .ident := by
    intro ws q hq
    obtain ⟨w, -, rfl⟩ := List.mem_map.1 hq
    rfl
  rw [lead] at hp
  split at hp
  · exact hword (h.kind.marker :: h.keyword) p hp
  · rw [← List.map_singleton, ← List.map_append] at hp
    exact hword (h.keyword ++ [h.kind.marker]) p hp

/-- Punctuation before the clause belongs to the attributes. -/
theorem mem_attributes_of_punct {c : Char} (hp : p ∈ h.front) (hc : p.1 = .punct c) :
    p ∈ h.attributes := by
  simp only [front, List.mem_append] at hp
  rcases hp with hp | hp | hp | hp
  · simp [isWord_of_mem_lead hp] at hc
  · exact hp
  · exact absurd hc (NameParts.not_punct_of_mem_shapes hp c)
  · rw [finalShapes] at hp
    split at hp
    · rw [List.mem_singleton.1 hp, Shape.word] at hc
      simp at hc
    · simp at hp

theorem endsHead_of_mem_front (hp : p ∈ h.front) : p.endsHead = false := by
  by_cases hpunct : ∃ c, p.1 = .punct c
  · obtain ⟨c, hc⟩ := hpunct
    exact h.attributePart.endsHead_eq_false p (mem_attributes_of_punct hp hc)
  · exact Shape.endsHead_of_not_punct fun c hc => hpunct ⟨c, hc⟩

theorem endsHead_of_mem_clauseShapes (hp : p ∈ h.clauseShapes) : p.endsHead = false := by
  rw [clauseShapes] at hp
  split at hp
  · simp at hp
  · next ps hps =>
    rcases List.mem_cons.1 hp with rfl | hp
    · rfl
    · exact h.clause_stays ps hps p hp

/-! ## The places of its parts -/

/-- Between the last part of the name and the clause there is at most one word. -/
theorem clauseAt_eq : h.clauseAt base = h.lastAt base + 1 + h.finalShapes.length := by
  simp only [clauseAt, front, lastAt, nameAt, attributesAt, List.length_append,
    NameParts.length_shapes]
  omega

/-- The body opens with the last token of its head. -/
theorem length_shapes (h : AttributedHead) (base : Nat) :
    base + h.shapes.length = h.bodyAt base + 1 := by
  simp only [shapes, bodyAt, clauseAt, List.length_append, List.length_singleton]
  omega

section Places

variable (hat : s.ShapesAt base h.shapes)

include hat

theorem shapesAt_lead : s.ShapesAt base h.lead :=
  hat.left.left

theorem shapesAt_attributes : s.ShapesAt (h.attributesAt base) h.attributes :=
  hat.left.right.left

theorem shapesAt_name : s.ShapesAt (h.nameAt base) h.name.shapes :=
  hat.left.right.right.left

theorem hasShape_last : s.HasShape (h.lastAt base) (.word h.name.last) := by
  have hlast := (shapesAt_name hat).right.head
  rwa [NameParts.length_outerShapes] at hlast

theorem shapesAt_final : s.ShapesAt (h.lastAt base + 1) h.finalShapes := by
  have hplace : h.nameAt base + h.name.shapes.length = h.lastAt base + 1 := by
    rw [NameParts.length_shapes, lastAt, Nat.add_assoc]
  exact hplace ▸ hat.left.right.right.right

theorem shapesAt_clause : s.ShapesAt (h.clauseAt base) h.clauseShapes :=
  hat.right.left

/-- The head ends with the brace that opens its body. -/
theorem hasShape_body : s.HasShape (h.bodyAt base) (.punct '\x7b') :=
  hat.right.right.head

/-- No token before the body ends the head. -/
theorem endsHead_eq_false (hk : base ≤ k) (hkb : k < h.bodyAt base) :
    DeclHead.endsHead s k = false := by
  by_cases hkc : k < h.clauseAt base
  · obtain ⟨p, hp, hshape⟩ := hat.left.exists_mem hk hkc
    rw [hshape.endsHead_eq, endsHead_of_mem_front hp]
  · obtain ⟨p, hp, hshape⟩ := (shapesAt_clause hat).exists_mem (Nat.le_of_not_lt hkc) hkb
    rw [hshape.endsHead_eq, endsHead_of_mem_clauseShapes hp]

/-- The search for the body ends at its brace. -/
theorem find?_endsHead (hb : base ≤ start) (hle : start ≤ h.bodyAt base) :
    (s.indices start s.size).find? (DeclHead.endsHead s) = some (h.bodyAt base) := by
  have hbrace : s.isPunct (h.bodyAt base) '\x7b' := by
    rw [(hasShape_body hat).isPunct_eq]
    rfl
  have hsize := TokenStream.lt_size_of_isPunct hbrace
  refine TokenStream.find?_indices.2 ⟨⟨hle, hsize, hsize⟩, ?_, fun k hk hkb => ?_⟩
  · simp [DeclHead.endsHead, hbrace]
  · exact endsHead_eq_false hat (by omega) hkb

/-- Without colons in the attributes the clause is found where it begins, or none is found. -/
theorem findPunct_colon (hcolon : ∀ p ∈ h.attributes, p.1 ≠ .punct ':') (hb : base ≤ start)
    (hle : start ≤ h.clauseAt base) :
    (s.findPunct start (h.bodyAt base) ':').getD (h.bodyAt base) = h.clauseAt base := by
  have hbefore : ∀ k, start ≤ k → k < h.clauseAt base → s.isPunct k ':' = false := by
    intro k hk hkc
    obtain ⟨p, hp, hshape⟩ := hat.left.exists_mem (by omega) hkc
    rw [hshape.isPunct_eq, beq_eq_false_iff_ne]
    intro hc
    exact hcolon p (mem_attributes_of_punct hp hc) hc
  cases hclause : h.clause with
  | none =>
      have hlen : h.bodyAt base = h.clauseAt base := by
        rw [bodyAt, clauseShapes, hclause, List.length_nil, Nat.add_zero]
      have hnone : s.findPunct start (h.bodyAt base) ':' = none := by
        rw [TokenStream.findPunct, List.find?_eq_none]
        intro k hk
        obtain ⟨hk, hkb, -⟩ := TokenStream.mem_indices.1 hk
        simp [hbefore k hk (hlen ▸ hkb)]
      rw [hnone, Option.getD_none, hlen]
  | some ps =>
      have hshapes : h.clauseShapes = .punct ':' :: ps := by rw [clauseShapes, hclause]
      have hc : s.isPunct (h.clauseAt base) ':' := by
        have hrow := shapesAt_clause hat
        rw [hshapes] at hrow
        rw [hrow.head.isPunct_eq]
        rfl
      have hlt : h.clauseAt base < h.bodyAt base := by
        rw [bodyAt, hshapes, List.length_cons]
        omega
      have hfound : s.findPunct start (h.bodyAt base) ':' = some (h.clauseAt base) :=
        TokenStream.find?_indices.2 ⟨⟨hle, hlt, TokenStream.lt_size_of_isPunct hc⟩, hc, hbefore⟩
      rw [hfound, Option.getD_some]

/-- The search for the end of the name goes back over `final`. -/
theorem nameEnd_clauseAt (hle : start ≤ h.lastAt base) :
    DeclHead.nameEnd s h.kind start (h.clauseAt base) =
      DeclHead.nameEnd s h.kind start (h.lastAt base + 1) := by
  rw [clauseAt_eq, finalShapes]
  split
  · next hfinal =>
    have hword : s.isIdent (h.lastAt base + 1) "final".toList := by
      have hrow := shapesAt_final hat
      rw [finalShapes, if_pos hfinal] at hrow
      rw [hrow.head.isIdent_eq]
      rfl
    exact DeclHead.nameEnd_of_skipped (by omega) (.inl hword)
  · rfl

/-- What stands right before the name is no separator. -/
theorem isSeparator_before_name : s.isSeparator (h.nameAt base - 1) = false := by
  cases hlast : h.attributes.getLast? with
  | none =>
      -- There are no attributes, and the name stands behind the keyword or the marker.
      have hnil : h.attributes = [] := List.getLast?_eq_none_iff.1 hlast
      have hname : h.nameAt base = base + h.lead.length := by
        rw [nameAt, attributesAt, hnil, List.length_nil, Nat.add_zero]
      have hpos : 0 < h.lead.length := by
        rw [lead]
        split <;> simp
      obtain ⟨p, hp, hshape⟩ := (shapesAt_lead hat).exists_mem (k := h.nameAt base - 1)
        (by omega) (by omega)
      rw [hshape.isSeparator_eq, isWord_of_mem_lead hp]
      rfl
  | some p =>
      have hshape := (shapesAt_attributes hat).last hlast
      rw [nameAt, hshape.isSeparator_eq, beq_eq_false_iff_ne]
      exact h.attributePart.getLast?_ne_separator p hlast

end Places

/-- The search for the start of a name goes back over its parts. -/
theorem nameStartFrom_outerShapes {outer : List Text} {i : Nat}
    (hat : s.ShapesAt i (NameParts.outerShapes outer)) (hle : start ≤ i) :
    DeclHead.nameStartFrom s start (i + 2 * outer.length) = DeclHead.nameStartFrom s start i := by
  induction outer generalizing i with
  | nil => rfl
  | cons w outer ih =>
      have hat : s.ShapesAt i (.word w :: .colons :: NameParts.outerShapes outer) := hat
      have hword : s.isWord i := by
        rw [hat.head.isWord_eq]
        rfl
      have hseparator : s.isSeparator (i + 1) := by
        rw [hat.tail.head.isSeparator_eq]
        rfl
      have hlen : i + 2 * (w :: outer).length = i + 2 + 2 * outer.length := by
        rw [List.length_cons]
        omega
      rw [hlen, ih hat.tail.tail (by omega), DeclHead.nameStartFrom, if_pos]
      simp [hle, hword, hseparator]

/-- The search for the start of the name ends at its first part. -/
theorem nameStartFrom_lastAt (hat : s.ShapesAt base h.shapes) (hle : start ≤ h.nameAt base) :
    DeclHead.nameStartFrom s start (h.lastAt base) = h.nameAt base := by
  rw [lastAt, nameStartFrom_outerShapes (shapesAt_name hat).left hle]
  exact DeclHead.nameStartFrom_of_isSeparator (isSeparator_before_name hat)

end AttributedHead

end HeaderReflection
