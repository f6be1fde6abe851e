/-
  HeaderReflection.Proofs.Joined.Locality

  Extraction is local. What a header declares that ends in a semicolon, it
  declares whatever goes on behind it, and what goes on declares what it does
  by itself. No pass, no search and no look back goes over the seam.
-/
import HeaderReflection.Proofs.Joined.Passes
import HeaderReflection.Proofs.Joined.Scopes

namespace HeaderReflection

variable {a b x : Text} {p q s : TokenStream} {ea eb e : Extraction} {k : Nat}

/-- The declarations of both parts follow one another. -/
theorem extract_join {source source₁ source₂ : Text} (hs : tokenize source = .ok s)
    (hp : tokenize source₁ = .ok p) (hq : tokenize source₂ = .ok q) (hleft : PartOf p s 0 0)
    (hright : PartOf q s p.size k) (hsize : s.size = p.size + q.size)
    (ha : extract p (ScopeTree.build p) = .ok ea) (hb : extract q (ScopeTree.build q) = .ok eb) :
    extract s (ScopeTree.build s) = .ok ⟨ea.structs ++ eb.structs, ea.enums ++ eb.enums⟩ := by
  obtain ⟨hscopes, hscopes'⟩ := ScopeTree.sameScopes_join hs hp hq hleft hright hsize
  obtain ⟨hstructs, henums⟩ := extract_eq_ok.1 ha
  obtain ⟨hstructs', henums'⟩ := extract_eq_ok.1 hb
  have hstruct := hleft.goes_structs hscopes hstructs
  have hstruct' := hright.goes_structs hscopes' hstructs'
  have henum := hleft.goes_enums hscopes henums
  have henum' := hright.goes_enums hscopes' henums'
  rw [Nat.zero_add] at hstruct henum
  rw [← hsize] at hstruct' henum'
  exact extract_eq_ok.2 ⟨collect_of_goes hstruct hstruct', collect_of_goes henum henum'⟩

/-- Of two headers with a line end between them, the first of which ends in a semicolon, in its text
and in its tokens, the declarations are those of the first one and then those of the second, with the
same names, qualifiers, fields and cases. -/
theorem extractSource_append (ha : extractSource a = .ok ea) (hb : extractSource b = .ok eb)
    (hend : a.getLast? = some ';') (hx : normalize a = .ok x)
    (hlast : ((Token.scan x).getLast?).map Token.kind = some (.punct ';')) :
    extractSource (a ++ '\n' :: b) = .ok ⟨ea.structs ++ eb.structs, ea.enums ++ eb.enums⟩ := by
  obtain ⟨x', p, hx', hp, hea⟩ := extractSource_eq_ok.1 ha
  obtain ⟨y, q, hy, hq, heb⟩ := extractSource_eq_ok.1 hb
  obtain rfl := Except.ok.inj (hx.symm.trans hx')
  obtain ⟨o, f, g, rfl, hjoined⟩ := exists_normalize_append hx hy hend
  obtain ⟨s, hs, hsize, hleft, hright⟩ := TokenStream.exists_parts hp hq hlast g
  exact extractSource_eq_ok.2 ⟨_, s, hjoined, hs, extract_join hs hp hq hleft hright hsize hea heb⟩

/-- A struct in a namespace, a directive at the seam that ends in a semicolon, and a header that
starts with a marker. -/
theorem extractSource_append_directive :
    extractSource ("namespace A\x7bREFLECT_STRUCT struct S\x7bREFLECT(x);\x7d;\x7d;\n#if 0 ;".toList ++
        '\n' :: "REFLECT_ENUM enum class E\x7bX\x7d;".toList) =
      .ok ⟨[⟨"S".toList, "A".toList, ["x".toList]⟩], [⟨"E".toList, [], ["X".toList]⟩]⟩ := by
  have ha : extractSource
      "namespace A\x7bREFLECT_STRUCT struct S\x7bREFLECT(x);\x7d;\x7d;\n#if 0 ;".toList =
        .ok ⟨[⟨"S".toList, "A".toList, ["x".toList]⟩], []⟩ := by
    decide +kernel
  have hb : extractSource "REFLECT_ENUM enum class E\x7bX\x7d;".toList =
      .ok ⟨[], [⟨"E".toList, [], ["X".toList]⟩]⟩ := by
    decide +kernel
  have hx : normalize
      "namespace A\x7bREFLECT_STRUCT struct S\x7bREFLECT(x);\x7d;\x7d;\n#if 0 ;".toList =
        .ok "namespace A\x7bREFLECT_STRUCT struct S\x7bREFLECT(x);\x7d;\x7d;".toList := by
    decide +kernel
  have hlast : ((Token.scan
      "namespace A\x7bREFLECT_STRUCT struct S\x7bREFLECT(x);\x7d;\x7d;".toList).getLast?).map
        Token.kind = some (.punct ';') := by
    decide +kernel
  exact extractSource_append ha hb (by decide +kernel) hx hlast

end HeaderReflection
