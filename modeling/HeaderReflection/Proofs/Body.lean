/-
  HeaderReflection.Proofs.Body

  The steps of the reading of a struct's body. It goes on from the next field
  marker, whatever stands before that, and a marked name is a field.
-/
import HeaderReflection.Declaration.Body
import HeaderReflection.Proofs.Steps

namespace HeaderReflection

variable {s : TokenStream} {i m close : Nat}

theorem collectFieldsFrom_of_none (h : s.findIdent i close fieldMarker = none) :
    collectFieldsFrom s close i = .ok [] := by
  rw [collectFieldsFrom]
  split
  · rfl
  · next hsome => simp [h] at hsome

/-- What is collected depends only on the next marker. -/
theorem collectFieldsFrom_of_some (h : s.findIdent i close fieldMarker = some m) :
    collectFieldsFrom s close i =
      if s.isPunct (m + 1) '(' then
        match s.findPunct (m + 2) close ')' with
        | none => .error (.unclosedField (s.offset m))
        | some paren => do
          let rest ← collectFieldsFrom s close (paren + 1)
          return (s.textBetween (m + 2) paren).trim :: rest
      else collectFieldsFrom s close (m + 1) := by
  rw [collectFieldsFrom]
  split
  · next hnone => simp [h] at hnone
  · next m' hsome =>
    obtain rfl := Option.some.inj (h.symm.trans hsome)
    split
    · split
      · next hparen => simp [hparen]
      · next hparen => simp [hparen]
    · rfl

theorem skips_collectFieldsFrom (s : TokenStream) (close : Nat) :
    Skips (collectFieldsFrom s close) s fieldMarker close := by
  intro i _ hi
  have hfind : s.findIdent i close fieldMarker = s.findIdent (i + 1) close fieldMarker :=
    TokenStream.findIdent_succ hi
  cases h : s.findIdent (i + 1) close fieldMarker with
  | none => rw [collectFieldsFrom_of_none h, collectFieldsFrom_of_none (hfind.trans h)]
  | some m => rw [collectFieldsFrom_of_some h, collectFieldsFrom_of_some (hfind.trans h)]

/-- A marker with one token in parentheses behind it gives one field. -/
theorem goes_collectFieldsFrom (hmarker : s.isIdent i fieldMarker) (hopen : s.isPunct (i + 1) '(')
    (hinner : s.isPunct (i + 2) ')' = false) (hend : s.isPunct (i + 3) ')') (hclose : i + 3 < close) :
    Goes (collectFieldsFrom s close) i (i + 4) [(s.textBetween (i + 2) (i + 3)).trim] := by
  have hparen : s.findPunct (i + 2) close ')' = some (i + 3) := by
    have hsize := TokenStream.lt_size_of_isPunct hend
    refine TokenStream.find?_indices.2 ⟨⟨by omega, hclose, hsize⟩, hend, fun k hk hk' => ?_⟩
    obtain rfl : k = i + 2 := by omega
    exact hinner
  rw [Goes, collectFieldsFrom_of_some (TokenStream.findIdent_self hmarker (by omega)), if_pos hopen,
    hparen]
  rfl

end HeaderReflection
