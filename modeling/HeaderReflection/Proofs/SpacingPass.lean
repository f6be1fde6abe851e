/-
  HeaderReflection.Proofs.SpacingPass

  Canonical spacing as one pass. Its steps each drop the spaces that stand
  beside certain characters, so together they write one space for a run of
  blanks, if one may stand between what was written last and what comes next.
  A text is therefore respaced part by part: what a part hands on to the next
  is its last character and whether blanks are waiting.
-/
import HeaderReflection.NormalForm
import Mathlib.Data.List.Basic

namespace HeaderReflection.NormalForm

variable {a b c d k : Char} {s gap : Text} {last : Option Char} {pending : Bool}
variable {keep keep' : Option Char → Option Char → Bool}

/-- Does canonical spacing take the character for a space? -/
def isLayout (c : Char) : Bool :=
  c == ' ' || c == '\n' || c == '\r' || c == '\t'

theorem ne_space_of_not_layout (hc : isLayout c = false) : c ≠ ' ' := by
  rintro rfl
  simp [isLayout] at hc

/-- A space, or nothing. -/
def spaceIf (b : Bool) : Text :=
  if b then [' '] else []

@[simp] theorem spaceIf_true : spaceIf true = [' '] := rfl

@[simp] theorem spaceIf_false : spaceIf false = [] := rfl

theorem eq_space_of_mem_spaceIf {b : Bool} (hc : c ∈ spaceIf b) : c = ' ' := by
  cases b with
  | false => simp at hc
  | true => simpa using hc

/-- Writes one space for each run of layout characters, if `keep` allows one between the characters
on its sides; `last` was written last, and `pending` says that layout characters stood behind it. -/
def spaceOut (keep : Option Char → Option Char → Bool) (last : Option Char) (pending : Bool) :
    Text → Text
  | [] => spaceIf (pending && keep last none)
  | c :: r =>
    if isLayout c then spaceOut keep last true r
    else spaceIf (pending && keep last (some c)) ++ c :: spaceOut keep (some c) false r

theorem spaceOut_of_layout (hc : isLayout c) :
    spaceOut keep last pending (c :: s) = spaceOut keep last true s := by
  rw [spaceOut, if_pos hc]

theorem spaceOut_of_not_layout (hc : isLayout c = false) :
    spaceOut keep last pending (c :: s) =
      spaceIf (pending && keep last (some c)) ++ c :: spaceOut keep (some c) false s := by
  rw [spaceOut, if_neg (by simp [hc])]

/-- Where something has been written, only what `keep` says behind a character matters. -/
theorem spaceOut_congr (h : ∀ c next, keep (some c) next = keep' (some c) next) (c : Char)
    (pending : Bool) (s : Text) :
    spaceOut keep (some c) pending s = spaceOut keep' (some c) pending s := by
  induction s generalizing c pending with
  | nil => simp only [spaceOut, h]
  | cons d s ih => simp only [spaceOut, h, ih]

/-! ## The steps as such passes -/

/-- Flattening and collapsing write a space for every run. -/
theorem collapseSpacesFrom_flatten (last : Option Char) (s : Text) :
    collapseSpacesFrom false (flatten s) = spaceOut (fun _ _ => true) last false s ∧
      ' ' :: collapseSpacesFrom true (flatten s) = spaceOut (fun _ _ => true) last true s := by
  induction s generalizing last with
  | nil => exact ⟨rfl, rfl⟩
  | cons c s ih =>
      by_cases hc : isLayout c
      · have hflat : flatten (c :: s) = ' ' :: flatten s := by
          simp only [isLayout, Bool.or_eq_true, beq_iff_eq] at hc
          rcases hc with ((rfl | rfl) | rfl) | rfl <;> rfl
        rw [hflat, spaceOut_of_layout hc, spaceOut_of_layout hc, ← (ih last).2]
        exact ⟨rfl, rfl⟩
      · have hne : c ≠ ' ' ∧ c ≠ '\n' ∧ c ≠ '\r' ∧ c ≠ '\t' := by
          simpa [isLayout, and_assoc] using hc
        have hflat : flatten (c :: s) = c :: flatten s := by simp [flatten, hne]
        have hcollapse : ∀ b, collapseSpacesFrom b (c :: flatten s) =
            c :: collapseSpacesFrom false (flatten s) := by
          intro b
          simp [collapseSpacesFrom, hne]
        rw [Bool.not_eq_true] at hc
        rw [hflat, spaceOut_of_not_layout hc, spaceOut_of_not_layout hc, hcollapse, hcollapse,
          (ih (some c)).1]
        exact ⟨rfl, rfl⟩

theorem contract_cons_of_ne (hc : c ≠ a) (s : Text) :
    Text.contract a b k (c :: s) = c :: Text.contract a b k s := by
  cases s with
  | nil => rfl
  | cons d s => rw [Text.contract, if_neg (by simp [hc])]

theorem contract_cons_cons_of_ne (hd : d ≠ b) (s : Text) :
    Text.contract a b k (c :: d :: s) = c :: Text.contract a b k (d :: s) := by
  rw [Text.contract, if_neg (by simp [hd])]

theorem contract_pair (s : Text) : Text.contract a b k (a :: b :: s) = k :: Text.contract a b k s := by
  rw [Text.contract, if_pos (by simp)]

theorem contract_spaceIf (x : Bool) : Text.contract a b k (spaceIf x) = spaceIf x := by
  cases x <;> rfl

theorem some_bne_of_ne (h : c ≠ d) : (some c != some d) = true := by
  simp [h]

/-- Spaces go before `k`. -/
theorem contract_before (last : Option Char) (pending : Bool) (s : Text) :
    Text.contract ' ' k k (spaceOut keep last pending s) =
      spaceOut (fun last next => keep last next && next != some k) last pending s := by
  induction s generalizing last pending with
  | nil =>
      rw [spaceOut, contract_spaceIf, spaceOut]
      simp only [show (none != some k) = true from rfl, Bool.and_true]
  | cons c s ih =>
      by_cases hc : isLayout c
      · rw [spaceOut_of_layout hc, spaceOut_of_layout hc, ih]
      rw [Bool.not_eq_true] at hc
      have hspace := ne_space_of_not_layout hc
      rw [spaceOut_of_not_layout hc, spaceOut_of_not_layout hc, ← Bool.and_assoc, ← ih]
      cases pending && keep last (some c) with
      | false => exact contract_cons_of_ne hspace _
      | true =>
          by_cases hck : c = k
          · subst hck
            simpa using contract_pair _
          · rw [some_bne_of_ne hck]
            exact (contract_cons_cons_of_ne hck _).trans
              (congrArg (' ' :: ·) (contract_cons_of_ne hspace _))

/-- Spaces go behind `k`, where something has been written. -/
theorem contract_after_cons (hk : k ≠ ' ') (c : Char) (pending : Bool) (s : Text) :
    Text.contract k ' ' k (c :: spaceOut keep (some c) pending s) =
      c :: spaceOut (fun last next => keep last next && last != some k) (some c) pending s := by
  induction s generalizing c pending with
  | nil =>
      rw [spaceOut, spaceOut, ← Bool.and_assoc]
      cases pending && keep (some c) none with
      | false => rfl
      | true =>
          by_cases hck : c = k
          · subst hck
            simp [Text.contract]
          · rw [some_bne_of_ne hck]
            exact contract_cons_of_ne hck _
  | cons d s ih =>
      by_cases hd : isLayout d
      · rw [spaceOut_of_layout hd, spaceOut_of_layout hd, ih]
      rw [Bool.not_eq_true] at hd
      have hspace := ne_space_of_not_layout hd
      rw [spaceOut_of_not_layout hd, spaceOut_of_not_layout hd, ← Bool.and_assoc, ← ih]
      cases pending && keep (some c) (some d) with
      | false => exact contract_cons_cons_of_ne hspace _
      | true =>
          by_cases hck : c = k
          · subst hck
            simpa using contract_pair _
          · rw [some_bne_of_ne hck]
            exact (contract_cons_of_ne hck _).trans
              (congrArg (c :: ·) (contract_cons_of_ne hk.symm _))

/-- Spaces go behind `k`. -/
theorem contract_after (hk : k ≠ ' ') (pending : Bool) (s : Text) :
    Text.contract k ' ' k (spaceOut keep none pending s) =
      spaceOut (fun last next => keep last next && last != some k) none pending s := by
  induction s generalizing pending with
  | nil =>
      rw [spaceOut, contract_spaceIf, spaceOut]
      simp only [show (none != some k) = true from rfl, Bool.and_true]
  | cons d s ih =>
      by_cases hd : isLayout d
      · rw [spaceOut_of_layout hd, spaceOut_of_layout hd, ih]
      rw [Bool.not_eq_true] at hd
      rw [spaceOut_of_not_layout hd, spaceOut_of_not_layout hd, ← Bool.and_assoc,
        ← contract_after_cons hk]
      cases pending && keep none (some d) with
      | false => rfl
      | true => exact contract_cons_of_ne hk.symm _

/-- The space at the start goes. -/
theorem dropLeadingSpace_spaceOut (pending : Bool) (s : Text) :
    dropLeadingSpace (spaceOut keep none pending s) =
      spaceOut (fun last next => keep last next && last.isSome) none pending s := by
  induction s generalizing pending with
  | nil => cases h : pending && keep none none <;> simp [spaceOut, h, dropLeadingSpace]
  | cons c s ih =>
      by_cases hc : isLayout c
      · rw [spaceOut_of_layout hc, spaceOut_of_layout hc, ih]
      rw [Bool.not_eq_true] at hc
      have hspace := ne_space_of_not_layout hc
      have hbehind : spaceOut keep (some c) false s =
          spaceOut (fun last next => keep last next && last.isSome) (some c) false s :=
        spaceOut_congr (by simp) c false s
      rw [spaceOut_of_not_layout hc, spaceOut_of_not_layout hc, hbehind]
      cases pending && keep none (some c) <;> simp [dropLeadingSpace, hspace]

/-! ## All steps in one -/

/-- Does canonical spacing leave a space between the two characters? It leaves none at the start of a
text, behind a brace or a semicolon and before a brace. -/
def allowsSpace (last next : Option Char) : Bool :=
  last.isSome && last != some '\x7b' && last != some '\x7d' && last != some ';' &&
    next != some '\x7b' && next != some '\x7d'

/-- Canonical spacing goes through the text once. -/
theorem respace_eq (s : Text) : respace s = spaceOut allowsSpace none false s := by
  rw [respace, tightenPunctuation, collapseSpaces, (collapseSpacesFrom_flatten none s).1,
    contract_before, contract_after (by decide), contract_after (by decide), contract_before,
    contract_after (by decide), dropLeadingSpace_spaceOut]
  congr 1
  funext last next
  simp only [allowsSpace, Bool.true_and]
  ac_rfl

/-! ## Part by part -/

/-- What a part of a text is respaced to, with its last character and whether layout characters are
waiting behind it. -/
structure SpacedPart where
  written : Text
  last : Option Char
  pending : Bool
  deriving DecidableEq

/-- Respaces one part of a text. Layout characters become a space where `keep` allows one between the
characters beside them; those behind the last character are left to the next part. -/
def spacePart (keep : Option Char → Option Char → Bool) (last : Option Char) (pending : Bool) :
    Text → SpacedPart
  | [] => ⟨[], last, pending⟩
  | c :: r =>
    if isLayout c then spacePart keep last true r
    else
      let rest := spacePart keep (some c) false r
      { rest with written := spaceIf (pending && keep last (some c)) ++ c :: rest.written }

theorem spacePart_of_layout (hc : isLayout c) :
    spacePart keep last pending (c :: s) = spacePart keep last true s := by
  rw [spacePart, if_pos hc]

theorem spacePart_of_not_layout (hc : isLayout c = false) :
    spacePart keep last pending (c :: s) =
      { spacePart keep (some c) false s with
        written := spaceIf (pending && keep last (some c)) ++
          c :: (spacePart keep (some c) false s).written } := by
  rw [spacePart, if_neg (by simp [hc])]

/-- A part is respaced by itself, and hands on its last character and whether blanks are waiting. -/
theorem spaceOut_append (s t : Text) :
    spaceOut keep last pending (s ++ t) = (spacePart keep last pending s).written ++
      spaceOut keep (spacePart keep last pending s).last (spacePart keep last pending s).pending t := by
  induction s generalizing last pending with
  | nil => rfl
  | cons c s ih =>
      by_cases hc : isLayout c
      · rw [List.cons_append, spaceOut_of_layout hc, ih, spacePart_of_layout hc]
      · rw [Bool.not_eq_true] at hc
        rw [List.cons_append, spaceOut_of_not_layout hc, ih, spacePart_of_not_layout hc,
          List.append_assoc, List.cons_append]

/-- Only spaces are written that the part has not. -/
theorem mem_of_mem_written (hd : d ∈ (spacePart keep last pending s).written) : d = ' ' ∨ d ∈ s := by
  induction s generalizing last pending with
  | nil => simp [spacePart] at hd
  | cons c s ih =>
      by_cases hc : isLayout c
      · rw [spacePart_of_layout hc] at hd
        exact (ih hd).imp_right (List.mem_cons_of_mem c)
      · rw [Bool.not_eq_true] at hc
        rw [spacePart_of_not_layout hc, List.mem_append, List.mem_cons] at hd
        rcases hd with hd | rfl | hd
        · exact Or.inl (eq_space_of_mem_spaceIf hd)
        · exact Or.inr List.mem_cons_self
        · exact (ih hd).imp_right (List.mem_cons_of_mem c)

theorem mem_of_mem_spaceOut (hd : d ∈ spaceOut keep last pending s) : d = ' ' ∨ d ∈ s := by
  rw [← List.append_nil s, spaceOut_append, spaceOut, List.mem_append] at hd
  rcases hd with hd | hd
  · exact mem_of_mem_written hd
  · exact Or.inl (eq_space_of_mem_spaceIf hd)

/-- Of the layout characters only spaces are written. -/
theorem isLayout_of_mem_spaceOut (hd : d ∈ spaceOut keep last pending s) :
    d = ' ' ∨ isLayout d = false := by
  induction s generalizing last pending with
  | nil => exact Or.inl (eq_space_of_mem_spaceIf hd)
  | cons c s ih =>
      by_cases hc : isLayout c
      · rw [spaceOut_of_layout hc] at hd
        exact ih hd
      · rw [Bool.not_eq_true] at hc
        rw [spaceOut_of_not_layout hc, List.mem_append, List.mem_cons] at hd
        rcases hd with hd | rfl | hd
        · exact Or.inl (eq_space_of_mem_spaceIf hd)
        · exact Or.inr hc
        · exact ih hd

/-- What stands before a text decides only whether a space stands at its start. -/
theorem exists_spaceOut_eq (last : Option Char) (p : Bool) (s : Text) :
    ∃ b, ∀ pending,
      spaceOut allowsSpace last p s = spaceIf b ++ spaceOut allowsSpace none pending s := by
  induction s generalizing p with
  | nil => exact ⟨p && allowsSpace last none, fun pending => by simp [spaceOut, allowsSpace]⟩
  | cons c s ih =>
      by_cases hc : isLayout c
      · obtain ⟨b, heq⟩ := ih true
        refine ⟨b, fun pending => ?_⟩
        rw [spaceOut_of_layout hc, spaceOut_of_layout hc, heq]
      · rw [Bool.not_eq_true] at hc
        refine ⟨p && allowsSpace last (some c), fun pending => ?_⟩
        simp [spaceOut_of_not_layout hc, allowsSpace]

/-- Two texts with a line end between them are respaced apart, but for a space at the seam. -/
theorem exists_respace_append (s : Text) :
    ∃ o b, respace s = o ++ spaceIf b ∧
      ∀ t, ∃ b', respace (s ++ '\n' :: t) = o ++ (spaceIf b' ++ respace t) := by
  let part := spacePart allowsSpace none false s
  refine ⟨part.written, part.pending && allowsSpace part.last none, ?_, fun t => ?_⟩
  · have h : spaceOut allowsSpace none false (s ++ []) = part.written ++ spaceOut allowsSpace part.last
        part.pending [] := spaceOut_append s []
    rwa [List.append_nil, ← respace_eq, spaceOut] at h
  · obtain ⟨b, heq⟩ := exists_spaceOut_eq part.last true t
    refine ⟨b, ?_⟩
    rw [respace_eq, respace_eq, spaceOut_append, spaceOut_of_layout (by rfl), heq false]

end HeaderReflection.NormalForm
