/-
  HeaderReflection.Proofs.Enumerators

  The body of an enum as a list of enumerators, and what is read of it. An
  initializer may hold any tokens with its brackets in pairs and its commas
  inside of them. The reading goes through an initializer and keeps of its state
  all but the index, so each enumerator gives its name alone.
-/
import HeaderReflection.Declaration.Body
import HeaderReflection.Proofs.Gaps
import HeaderReflection.Proofs.TokenShapes

namespace HeaderReflection

/-! ## Lists of enumerators -/

/-- The brackets that are to be paired, each with the one that closes it. -/
def brackets : List (Char × Char) :=
  [('(', ')'), ('[', ']'), ('{', '}')]

/-- Is a token of the shape one of the brackets? -/
def Shape.isBracket (p : Shape) : Bool :=
  brackets.any fun b => p.1 == .punct b.1 || p.1 == .punct b.2

/-- Any tokens with their brackets properly nested. Outside of the brackets there is a comma only if
the whole is inside of further ones. -/
inductive Bracketed : (inside : Bool) → List Shape → Prop
  | nil {inside : Bool} : Bracketed inside []
  | token {inside : Bool} {p : Shape} {ps : List Shape} (plain : p.isBracket = false)
      (comma : inside = true ∨ p.1 ≠ .punct ',') : Bracketed inside ps → Bracketed inside (p :: ps)
  | group {inside : Bool} (b : Char × Char) {ps qs : List Shape} (mem : b ∈ brackets) :
      Bracketed true ps → Bracketed inside qs →
      Bracketed inside (.punct b.1 :: (ps ++ .punct b.2 :: qs))

/-- Tokens without brackets, and without commas. -/
theorem Bracketed.of_forall {inside : Bool} (ps : List Shape)
    (h : ∀ p ∈ ps, p.isBracket = false ∧ (inside = true ∨ p.1 ≠ .punct ',')) :
    Bracketed inside ps := by
  induction ps with
  | nil => exact .nil
  | cons p ps ih =>
      obtain ⟨⟨plain, comma⟩, hrest⟩ := List.forall_mem_cons.1 h
      exact .token plain comma (ih hrest)

/-- A name with an optional initializer. -/
structure Enumerator where
  name : Text
  /-- What follows the equals sign. -/
  initializer : Option (List Shape)
  nested : ∀ ps ∈ initializer, Bracketed false ps

namespace Enumerator

/-- An enumerator without an initializer. -/
def plain (name : Text) : Enumerator :=
  ⟨name, none, nofun⟩

/-- An enumerator with the given initializer. -/
def given (name : Text) {ps : List Shape} (h : Bracketed false ps) : Enumerator :=
  ⟨name, some ps, fun _ hps => Option.some.inj hps ▸ h⟩

/-- The equals sign and what follows it, if there is an initializer. -/
def initializerShapes (e : Enumerator) : List Shape :=
  match e.initializer with
  | none => []
  | some ps => .punct '=' :: ps

/-- The tokens of an enumerator. -/
def shapes (e : Enumerator) : List Shape :=
  .word e.name :: e.initializerShapes

/-- Where the equals sign stands if the enumerator starts at index `i`. -/
def equalsAt (e : Enumerator) (i : Nat) : Option Nat :=
  e.initializer.map fun _ => i + 1

end Enumerator

/-- Enumerators with a comma between each two of them, and possibly one behind the last. -/
inductive EnumeratorList : List Enumerator → List Shape → Prop
  | nil : EnumeratorList [] []
  | last (e : Enumerator) : EnumeratorList [e] e.shapes
  | cons (e : Enumerator) {es : List Enumerator} {ps : List Shape} : EnumeratorList es ps →
      EnumeratorList (e :: es) (e.shapes ++ .punct ',' :: ps)

/-! ## One token of a case -/

variable {s : TokenStream} {q : CaseProgress} {p : Shape} {ps : List Shape} {b : Char × Char}
variable {source : Text} {inside : Bool} {i n close : Nat}

namespace CaseProgress

theorem step_of_open (hat : s.HasShape i (.punct b.1)) (hb : b ∈ brackets) :
    q.step s i = { q with depth := q.depth + 1 } := by
  obtain ⟨t, ht, hkind, -⟩ := hat.exists_token
  rw [step, ht, Option.map_some, hkind]
  simp only [brackets, List.mem_cons, List.not_mem_nil, or_false] at hb
  rcases hb with rfl | rfl | rfl <;> rfl

theorem step_of_close (hat : s.HasShape i (.punct b.2)) (hb : b ∈ brackets) :
    q.step s i = { q with depth := q.depth - 1 } := by
  obtain ⟨t, ht, hkind, -⟩ := hat.exists_token
  rw [step, ht, Option.map_some, hkind]
  simp only [brackets, List.mem_cons, List.not_mem_nil, or_false] at hb
  rcases hb with rfl | rfl | rfl <;> rfl

/-- The first equals sign outside of brackets ends the name. -/
theorem step_of_equals (hat : s.HasShape i (.punct '=')) (start : Nat) :
    CaseProgress.step s ⟨0, start, none⟩ i = ⟨0, start, some i⟩ := by
  obtain ⟨t, ht, hkind, -⟩ := hat.exists_token
  rw [step, ht, Option.map_some, hkind]
  rfl

/-- Other tokens mean nothing, nor do further equals signs. -/
theorem step_of_plain (hat : s.HasShape i p) (hp : p.isBracket = false)
    (hequals : p.1 = .punct '=' → q.stop.isSome) : q.step s i = q := by
  obtain ⟨t, ht, hkind, -⟩ := hat.exists_token
  rw [step, ht, Option.map_some, hkind]
  obtain ⟨kind, lexeme⟩ := p
  cases kind with
  | punct c =>
      simp only [Shape.isBracket, brackets, List.any_cons, List.any_nil, Bool.or_false,
        Bool.or_eq_false_iff, beq_eq_false_iff_ne, TokenKind.punct.injEq, ne_eq] at hp
      obtain ⟨⟨h₁, h₂⟩, ⟨h₃, h₄⟩, h₅, h₆⟩ := hp
      simp only [TokenKind.punct.injEq] at hequals
      cases hstop : q.stop with
      | none =>
          have hne : c ≠ '=' := fun hc => by simp [hstop] at hequals; exact hequals hc
          simp [h₁, h₂, h₃, h₄, h₅, h₆, hne]
      | some k => simp [h₁, h₂, h₃, h₄, h₅, h₆]
  | ident => rfl
  | separator => rfl
  | literal => rfl

end CaseProgress

/-! ## Through an enumerator -/

/-- The case goes on behind a token that is no comma, or that is inside of brackets. -/
theorem collectCasesFrom_step (h : (q.step s i).depth ≠ 0 ∨ s.isPunct i ',' = false) (n : Nat) :
    collectCasesFrom s close q (List.range' i (n + 1)) =
      collectCasesFrom s close (q.step s i) (List.range' (i + 1) n) := by
  rw [List.range'_succ, collectCasesFrom, if_neg]
  rcases h with h | h <;> simp [h]

/-- A comma outside of brackets ends the case. -/
theorem collectCasesFrom_comma (hat : s.HasShape i (.punct ',')) (hdepth : q.depth = 0) (n : Nat) :
    collectCasesFrom s close q (List.range' i (n + 1)) =
      q.finish s i ++ collectCasesFrom s close ⟨0, i + 1, none⟩ (List.range' (i + 1) n) := by
  have hstep : q.step s i = q :=
    CaseProgress.step_of_plain hat (by decide) (fun h => absurd h (by decide))
  have hcomma : s.isPunct i ',' := by
    rw [hat.isPunct_eq]
    rfl
  rw [List.range'_succ, collectCasesFrom]
  simp only [hstep]
  rw [if_pos]
  simp [hdepth, hcomma]

/-- Behind the equals sign, tokens with their brackets in pairs leave the case as it is. -/
theorem collectCasesFrom_of_bracketed (h : Bracketed inside ps) (hat : s.ShapesAt i ps)
    (hstop : q.stop.isSome) (hdepth : inside = true → q.depth ≠ 0) (n : Nat) :
    collectCasesFrom s close q (List.range' i (ps.length + n)) =
      collectCasesFrom s close q (List.range' (i + ps.length) n) := by
  induction h generalizing i q n with
  | nil => rw [List.length_nil, Nat.zero_add, Nat.add_zero]
  | @token inside p ps plain comma _ ih =>
      have hstep : q.step s i = q := CaseProgress.step_of_plain hat.head plain fun _ => hstop
      have hgo : (q.step s i).depth ≠ 0 ∨ s.isPunct i ',' = false := by
        rw [hstep, hat.head.isPunct_eq, beq_eq_false_iff_ne]
        exact comma.imp hdepth id
      rw [List.length_cons, Nat.add_right_comm, collectCasesFrom_step hgo, hstep,
        ih hat.tail hstop hdepth]
      congr 2
      omega
  | @group inside b ps qs mem _ _ ih ih' =>
      -- The group is gone through one level deeper, and its closing bracket takes that back.
      have hopen : q.step s i = { q with depth := q.depth + 1 } :=
        CaseProgress.step_of_open hat.head mem
      have hclosing := hat.tail.right.head
      have hclose : CaseProgress.step s { q with depth := q.depth + 1 } (i + 1 + ps.length) = q :=
        CaseProgress.step_of_close hclosing mem
      have hcomma : s.isPunct (i + 1 + ps.length) ',' = false := by
        have hne : ∀ b ∈ brackets, ((Shape.punct b.2).1 == .punct ',') = false := by decide
        rw [hclosing.isPunct_eq, hne b mem]
      have hlen : (Shape.punct b.1 :: (ps ++ Shape.punct b.2 :: qs)).length + n =
          ps.length + (qs.length + n + 1) + 1 := by
        simp only [List.length_cons, List.length_append]
        omega
      rw [hlen, collectCasesFrom_step (.inl (by simp [hopen])), hopen,
        ih (q := { q with depth := q.depth + 1 }) hat.tail.left hstop fun _ => Nat.succ_ne_zero _,
        collectCasesFrom_step (.inr hcomma), hclose, ih' hat.tail.right.tail hstop hdepth]
      congr 2
      simp only [List.length_cons, List.length_append]
      omega

/-- Behind an enumerator the case is known by its name and its equals sign. -/
theorem collectCasesFrom_of_enumerator (e : Enumerator) (hat : s.ShapesAt i e.shapes) (n : Nat) :
    collectCasesFrom s close ⟨0, i, none⟩ (List.range' i (e.shapes.length + n)) =
      collectCasesFrom s close ⟨0, i, e.equalsAt i⟩ (List.range' (i + e.shapes.length) n) := by
  -- The name changes nothing, and in the initializer every bracket that opens is closed again.
  have hword : CaseProgress.step s ⟨0, i, none⟩ i = ⟨0, i, none⟩ :=
    CaseProgress.step_of_plain hat.head (by simp [Shape.word, Shape.isBracket])
      (by simp [Shape.word])
  have hcomma : s.isPunct i ',' = false := by
    rw [hat.head.isPunct_eq]
    rfl
  have hrest : s.ShapesAt (i + 1) e.initializerShapes := hat.tail
  have hlen : e.shapes.length = e.initializerShapes.length + 1 := List.length_cons
  rw [hlen, Nat.add_right_comm, collectCasesFrom_step (.inr hcomma), hword]
  cases hinit : e.initializer with
  | none =>
      rw [Enumerator.equalsAt, Enumerator.initializerShapes, hinit]
      rw [List.length_nil, Nat.zero_add, Option.map_none]
  | some ps =>
      rw [Enumerator.initializerShapes, hinit] at hrest ⊢
      have hequals : s.isPunct (i + 1) ',' = false := by
        rw [hrest.head.isPunct_eq]
        rfl
      rw [Enumerator.equalsAt, hinit, List.length_cons, Nat.add_right_comm,
        collectCasesFrom_step (.inr hequals), CaseProgress.step_of_equals hrest.head,
        collectCasesFrom_of_bracketed (e.nested ps hinit) hrest.tail rfl (by simp)]
      congr 2
      omega

/-! ## Their names -/

/-- A word token holds no blank, and is not empty. -/
theorem TokenStream.HasShape.word_spec {w : Text} (hat : s.HasShape i (.word w))
    (hs : tokenize source = .ok s) : w ≠ [] ∧ ∀ c ∈ w, Text.isBlank c = false := by
  obtain ⟨t, ht, hkind, rfl⟩ := hat.exists_token
  have hmem : t ∈ Token.scan source := by
    rw [TokenStream.token?_of_tokenize hs] at ht
    exact List.mem_of_getElem? ht
  constructor
  · intro hnil
    have hlt := (TokenStream.within_of_token? hs ht).start_lt
    rw [Token.stop, show t.lexeme = [] from hnil] at hlt
    exact Nat.lt_irrefl _ hlt
  · intro c hc
    exact Token.isBlank_of_mem_lexeme hmem (by simp [hkind, Shape.word]) hc

theorem Enumerator.getD_equalsAt (e : Enumerator) (i : Nat) :
    (e.equalsAt i).getD (i + e.shapes.length) = i + 1 := by
  rw [equalsAt, shapes, initializerShapes]
  cases e.initializer with
  | none => rfl
  | some ps => rfl

variable (hs : tokenize source = .ok s) (hgap : ∀ i, ∀ c ∈ s.gap i, c = ' ')

include hs hgap

/-- What is kept of an enumerator is its name, without the spaces behind it. -/
theorem finish_of_enumerator (e : Enumerator) (hat : s.ShapesAt i e.shapes) :
    CaseProgress.finish s ⟨0, i, e.equalsAt i⟩ (i + e.shapes.length) = [e.name] := by
  have hname : s.HasShape i (.word e.name) := hat.head
  obtain ⟨hne, hblank⟩ := hname.word_spec hs
  have htext : s.textBetween i (i + 1) = e.name ++ s.gap i := by
    rw [TokenStream.textBetween_eq_append hs (Nat.lt_succ_self i), TokenStream.textBetween_self,
      List.append_nil, hname.text_eq]
    rfl
  have hspaces : (s.gap i).filter (· != ' ') = [] := by
    rw [List.filter_eq_nil_iff]
    intro c hc
    simp [hgap i c hc]
  have hkept : e.name.filter (· != ' ') = e.name := by
    rw [List.filter_eq_self]
    intro c hc
    rw [bne_iff_ne]
    rintro rfl
    exact absurd (hblank _ hc) (by decide)
  rw [CaseProgress.finish]
  simp only [e.getD_equalsAt, htext, List.filter_append, hspaces, hkept, List.append_nil]
  rw [if_neg]
  simpa using hne

/-- Of a list of enumerators the names are read, one for each of them. -/
theorem collectCasesFrom_of_list {es : List Enumerator} (h : EnumeratorList es ps)
    (hat : s.ShapesAt i ps) :
    collectCasesFrom s (i + ps.length) ⟨0, i, none⟩ (List.range' i ps.length) =
      es.map (·.name) := by
  induction h generalizing i with
  | nil =>
      -- Nothing is left, or nothing but the comma behind the last enumerator.
      rw [List.length_nil, List.range'_zero, collectCasesFrom, CaseProgress.finish]
      simp [TokenStream.textBetween_self]
  | last e =>
      have hthrough : collectCasesFrom s (i + e.shapes.length) ⟨0, i, none⟩
          (List.range' i e.shapes.length) = CaseProgress.finish s ⟨0, i, e.equalsAt i⟩
            (i + e.shapes.length) :=
        collectCasesFrom_of_enumerator e hat 0
      rw [hthrough, finish_of_enumerator hs hgap e hat]
      rfl
  | @cons e es ps _ ih =>
      have hcomma := hat.right.head
      have hrest := ih hat.right.tail
      have hlen : (e.shapes ++ Shape.punct ',' :: ps).length = e.shapes.length + (ps.length + 1) := by
        rw [List.length_append, List.length_cons]
      have hend : i + (e.shapes.length + (ps.length + 1)) = i + e.shapes.length + 1 + ps.length := by
        omega
      rw [hlen, collectCasesFrom_of_enumerator e hat.left, collectCasesFrom_comma hcomma rfl,
        finish_of_enumerator hs hgap e hat.left, hend, hrest]
      rfl

theorem collectCases_of_list {es : List Enumerator} {opening : Nat} (h : EnumeratorList es ps)
    (hat : s.ShapesAt (opening + 1) ps) :
    collectCases s opening (opening + 1 + ps.length) = es.map (·.name) := by
  rw [collectCases, Nat.add_sub_cancel_left, collectCasesFrom_of_list hs hgap h hat]

end HeaderReflection
