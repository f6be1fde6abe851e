/-
  HeaderReflection.Proofs.Spacing

  The passes that respace a text leave out spaces and change nothing else. A
  space goes only if a space, a brace or a semicolon stands before it or a brace
  behind it in what is kept.
-/
import HeaderReflection.NormalForm
import Mathlib.Data.List.Basic

namespace HeaderReflection.NormalForm

variable {a b c p : Char} {s s' : Text}

/-! ## Leaving out spaces -/

/-- The second text is the first one without some spaces; `p` stands before both. -/
inductive Thins : Char → Text → Text → Prop
  | nil {p : Char} : Thins p [] []
  | keep {p c : Char} {s s' : Text} (h : Thins c s s') : Thins p (c :: s) (c :: s')
  /-- The space stands behind a space, a brace or a semicolon. -/
  | dropAfter {p : Char} {s s' : Text} (hp : p ∈ [' ', '\x7b', '\x7d', ';']) (h : Thins p s s') :
      Thins p (' ' :: s) s'
  /-- The space stands before a brace. -/
  | dropBefore {p c : Char} {s s' : Text} (hc : c ∈ ['\x7b', '\x7d']) (h : Thins p s (c :: s')) :
      Thins p (' ' :: s) (c :: s')

namespace Thins

theorem refl (p : Char) (s : Text) : Thins p s s := by
  induction s generalizing p with
  | nil => exact nil
  | cons c s ih => exact keep (ih c)

/-- What is not a space is kept. -/
theorem mem (h : Thins p s s') (hc : c ≠ ' ') (hs : c ∈ s) : c ∈ s' := by
  induction h with
  | nil => exact hs
  | keep h ih =>
      rcases List.mem_cons.1 hs with rfl | hs
      · exact List.mem_cons_self
      · exact List.mem_cons_of_mem _ (ih hs)
  | dropAfter hp h ih =>
      rcases List.mem_cons.1 hs with rfl | hs
      · exact absurd rfl hc
      · exact ih hs
  | dropBefore hc' h ih =>
      rcases List.mem_cons.1 hs with rfl | hs
      · exact absurd rfl hc
      · exact ih hs

end Thins

/-! ## The passes -/

/-- Of a run of spaces the first stays; behind a space none does. -/
theorem thins_collapseSpacesFrom (s : Text) :
    (∀ p, Thins p s (collapseSpacesFrom false s)) ∧ Thins ' ' s (collapseSpacesFrom true s) := by
  induction s with
  | nil => exact ⟨fun p => Thins.nil, Thins.nil⟩
  | cons c s ih =>
      by_cases hc : c = ' '
      · subst hc
        exact ⟨fun p => Thins.keep ih.2, Thins.dropAfter (by simp) ih.2⟩
      · simp only [collapseSpacesFrom, beq_iff_eq, if_neg hc]
        exact ⟨fun p => Thins.keep (ih.1 c), Thins.keep (ih.1 c)⟩

/-- A space before a brace goes. -/
theorem thins_contract_before (hb : b ∈ ['\x7b', '\x7d']) (p : Char) (s : Text) :
    Thins p s (Text.contract ' ' b b s) := by
  fun_induction Text.contract ' ' b b s generalizing p with
  | case1 => exact Thins.nil
  | case2 x => exact Thins.refl p [x]
  | case3 x y r hxy ih =>
      simp only [Bool.and_eq_true, beq_iff_eq] at hxy
      obtain ⟨rfl, rfl⟩ := hxy
      exact Thins.dropBefore hb (Thins.keep (ih y))
  | case4 x y r _ ih => exact Thins.keep (ih x)

/-- A space behind a brace or a semicolon goes. -/
theorem thins_contract_after (ha : a ∈ [' ', '\x7b', '\x7d', ';']) (p : Char) (s : Text) :
    Thins p s (Text.contract a ' ' a s) := by
  fun_induction Text.contract a ' ' a s generalizing p with
  | case1 => exact Thins.nil
  | case2 x => exact Thins.refl p [x]
  | case3 x y r hxy ih =>
      simp only [Bool.and_eq_true, beq_iff_eq] at hxy
      obtain ⟨rfl, rfl⟩ := hxy
      exact Thins.keep (Thins.dropAfter ha (ih x))
  | case4 x y r _ ih => exact Thins.keep (ih x)

theorem thins_dropLeadingSpace (s : Text) : Thins ' ' s (dropLeadingSpace s) := by
  cases s with
  | nil => exact Thins.nil
  | cons c s =>
      rw [dropLeadingSpace]
      split
      · next hc =>
        obtain rfl : c = ' ' := by simpa using hc
        exact Thins.dropAfter (by simp) (Thins.refl _ s)
      · exact Thins.refl _ _

/-- What holds of the text with its line ends and tabs as spaces, and goes on to hold when spaces are
left out, holds of the respaced text. -/
theorem respace_induction {P : Text → Prop} (hflatten : P (flatten s))
    (hthins : ∀ p s s', Thins p s s' → P s → P s') : P (respace s) := by
  rw [respace, tightenPunctuation]
  refine hthins _ _ _ (thins_dropLeadingSpace _) ?_
  refine hthins ';' _ _ (thins_contract_after (by simp) _ _) ?_
  refine hthins ' ' _ _ (thins_contract_before (by simp) _ _) ?_
  refine hthins ' ' _ _ (thins_contract_after (by simp) _ _) ?_
  refine hthins ' ' _ _ (thins_contract_after (by simp) _ _) ?_
  refine hthins ' ' _ _ (thins_contract_before (by simp) _ _) ?_
  exact hthins ' ' _ _ ((thins_collapseSpacesFrom _).1 _) hflatten

/-- Respacing keeps every character that is no space, tab or line end. -/
theorem mem_respace (hc : c ∉ [' ', '\n', '\r', '\t']) (hs : c ∈ s) : c ∈ respace s := by
  simp only [List.mem_cons, List.not_mem_nil, or_false, not_or] at hc
  obtain ⟨hspace, hfeed, hreturn, htab⟩ := hc
  refine respace_induction ?_ fun p t t' h ht => h.mem hspace ht
  exact List.mem_map.2 ⟨c, hs, by simp [hfeed, hreturn, htab]⟩

end HeaderReflection.NormalForm
