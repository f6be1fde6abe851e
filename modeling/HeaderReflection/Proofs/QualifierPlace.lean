/-
  HeaderReflection.Proofs.QualifierPlace

  Where a qualifier is looked up. The qualifier of a struct is that of its name
  and the qualifier of an enum that of its marker, but the two places never
  differ: a namespace begins and ends at a brace, and no brace stands between a
  marker and the body of its declaration. A `namespace` in a head changes
  nothing, because it opens with the body.
-/
import HeaderReflection.Proofs.MarkerCoverage
import HeaderReflection.Proofs.Qualifier

namespace HeaderReflection

variable {source : Text} {s : TokenStream} {t : ScopeTree} {a b i k marker : Nat} {kind : DeclKind}

/-! ## Qualifiers of two bytes -/

namespace ScopeTree

/-- The innermost namespace depends on which namespaces hold the byte, and on nothing else. -/
theorem innermost_congr (h : ∀ r ∈ t.ranges, r.contains a = r.contains b) :
    t.innermost a = t.innermost b := by
  have htest : ∀ i : Nat, ((t.nodes[i]?).any fun (n : ScopeNode) => n.range.contains a) =
      (t.nodes[i]?).any fun (n : ScopeNode) => n.range.contains b := by
    intro i
    cases hn : t.nodes[i]? with
    | none => rfl
    | some n =>
        have hr : t.ranges[i]? = some n.range := by rw [getElem?_ranges, hn, Option.map_some]
        rw [Option.any_some, Option.any_some]
        exact h n.range (List.mem_of_getElem? hr)
  rw [innermost, innermost]
  simp only [htest]

/-- Two bytes that the same namespaces hold have the same qualifier. -/
theorem qualifierAt_congr (h : ∀ r ∈ t.ranges, r.contains a = r.contains b) :
    t.qualifierAt a = t.qualifierAt b := by
  rw [qualifierAt, qualifierAt, innermost_congr h]

/-! ## Qualifiers in one head -/

/-- A namespace holds all tokens of a stretch without braces, or none of them. -/
theorem contains_offset_congr (hs : tokenize source = .ok s) {r : ScopeRange}
    (hr : r ∈ (build s).ranges) (hik : i ≤ k) (hk : k < s.size)
    (hplain : ∀ m, i ≤ m → m ≤ k → s.isPunct m '{' = false ∧ s.isPunct m '}' = false) :
    r.contains (s.offset i) = r.contains (s.offset k) := by
  rw [ranges_build] at hr
  obtain ⟨n, hn, rfl⟩ := List.mem_map.1 hr
  have hn := Namespace.spec_of_mem hn
  have hbrace := hn.isPunct_brace
  have hclose := hn.isPunct_close hs
  -- The braces of the namespace are tokens of their own, so neither of them is in the stretch.
  have hbrace_out : ¬ (i ≤ n.brace ∧ n.brace ≤ k) := by
    intro hin
    have := (hplain n.brace hin.1 hin.2).1
    simp [hbrace] at this
  have hclose_out : ¬ (i ≤ n.close ∧ n.close ≤ k) := by
    intro hin
    have := (hplain n.close hin.1 hin.2).2
    simp [hclose] at this
  have hi : i < s.size := Nat.lt_of_le_of_lt hik hk
  have hb := TokenStream.lt_size_of_isPunct hbrace
  have hc := TokenStream.lt_size_of_isPunct hclose
  rw [Bool.eq_iff_iff, contains_range, contains_range, TokenStream.offset_le_iff hs hb hi,
    TokenStream.offset_le_iff hs hi hc, TokenStream.offset_le_iff hs hb hk,
    TokenStream.offset_le_iff hs hk hc]
  omega

/-- Every token of a head has the qualifier of the marker. -/
theorem qualifierAt_of_opensBody (hs : tokenize source = .ok s) {o : Nat}
    (hm : s.isIdent marker kind.marker) (h : DeclHead.OpensBody s marker o) (hmk : marker ≤ k)
    (hko : k < o) :
    (build s).qualifierAt (s.offset marker) = (build s).qualifierAt (s.offset k) := by
  have ho := TokenStream.lt_size_of_isPunct h.brace
  apply qualifierAt_congr
  intro r hr
  apply contains_offset_congr hs hr hmk (Nat.lt_trans hko ho)
  -- Neither the marker nor a token behind it in its head is a brace.
  intro m hm₁ hm₂
  have hend : DeclHead.endsHead s m = false := by
    rcases Nat.eq_or_lt_of_le hm₁ with rfl | hlt
    · exact DeclHead.endsHead_of_isIdent hm
    · exact h.head m hlt (by omega)
  simp only [DeclHead.endsHead, Bool.or_eq_false_iff] at hend
  exact ⟨hend.1.1, hend.2⟩

/-- Marker and name of a declaration have the same qualifier. -/
theorem qualifierAt_marker_eq_name (hs : tokenize source = .ok s) {head : DeclHead}
    (hm : s.isIdent marker kind.marker) (h : DeclHead.ofMarker s kind marker = .ok head) :
    (build s).qualifierAt (s.offset marker) = (build s).qualifierAt (s.offset head.nameStart) := by
  obtain ⟨start, hstart, hread⟩ := DeclHead.ofMarker_eq_ok.1 h
  obtain ⟨hle, hlt, -⟩ := DeclHead.read_nameStart hread
  have hms := (DeclHead.afterKeyword_bounds hm hstart).1
  exact qualifierAt_of_opensBody hs hm (DeclHead.opensBody hm hstart hread) (by omega) hlt

end ScopeTree

/-! ## Readings with the qualifier of either place -/

/-- The places at which a qualifier may be looked up. -/
inductive QualifierPlace
  | marker
  | name

/-- The token of the place. -/
def QualifierPlace.index (marker : Nat) (head : DeclHead) : QualifierPlace → Nat
  | .marker => marker
  | .name => head.nameStart

section Readings

variable (s : TokenStream) (scopes : ScopeTree) (place : QualifierPlace)

/-- The struct of a marker with the qualifier of the given place. -/
def readStructAt (marker : Nat) : Except ParseError (StructDecl × Nat) := do
  let head ← DeclHead.ofMarker s .struct marker
  let close ← bodyClose s head.body
  let fields ← collectFields s head.body close
  return (⟨head.name, scopes.qualifierAt (s.offset (place.index marker head)), fields⟩, head.body)

/-- The enum of a marker with the qualifier of the given place. -/
def readEnumAt (marker : Nat) : Except ParseError (EnumDecl × Nat) := do
  let head ← DeclHead.ofMarker s .enum marker
  let close ← bodyClose s head.body
  return (⟨head.name, scopes.qualifierAt (s.offset (place.index marker head)),
    collectCases s head.body close⟩, head.body)

theorem readStruct_eq_at_name : readStruct s scopes = readStructAt s scopes .name := by
  funext marker
  simp only [readStruct, readStructAt, DeclHead.ofMarker, bind_assoc, QualifierPlace.index]

theorem readEnum_eq_at_marker : readEnum s scopes = readEnumAt s scopes .marker := by
  funext marker
  simp only [readEnum, readEnumAt, DeclHead.ofMarker, bind_assoc, QualifierPlace.index]

end Readings

/-! ## Readings do not depend on the place -/

/-- The declaration has the name of its marker's head, and the qualifier of either place. -/
def NamedAtEitherPlace (s : TokenStream) (kind : DeclKind) (marker : Nat) (name qualifier : Text) :
    Prop :=
  ∃ head, DeclHead.ofMarker s kind marker = .ok head ∧ head.name = name ∧
    ∀ place : QualifierPlace,
      (ScopeTree.build s).qualifierAt (s.offset (place.index marker head)) = qualifier

/-- The qualifier of a marker's declaration is the same at both places. -/
theorem qualifierAt_index (hs : tokenize source = .ok s) {head : DeclHead}
    (hm : s.isIdent marker kind.marker) (h : DeclHead.ofMarker s kind marker = .ok head)
    (place place' : QualifierPlace) :
    (ScopeTree.build s).qualifierAt (s.offset (place.index marker head)) =
      (ScopeTree.build s).qualifierAt (s.offset (place'.index marker head)) := by
  have heq := ScopeTree.qualifierAt_marker_eq_name hs hm h
  cases place with
  | marker =>
      cases place' with
      | marker => rfl
      | name => exact heq
  | name =>
      cases place' with
      | marker => exact heq.symm
      | name => rfl

theorem readStructAt_congr (hs : tokenize source = .ok s)
    (hm : s.isIdent marker DeclKind.struct.marker) (place place' : QualifierPlace) :
    readStructAt s (ScopeTree.build s) place marker =
      readStructAt s (ScopeTree.build s) place' marker := by
  cases hhead : DeclHead.ofMarker s .struct marker with
  | error e => rw [readStructAt, readStructAt, hhead]; rfl
  | ok head =>
      have hplace := qualifierAt_index hs hm hhead place place'
      rw [readStructAt, readStructAt, hhead]
      show Except.bind (.ok head) _ = Except.bind (.ok head) _
      simp only [Except.bind, hplace]

theorem readEnumAt_congr (hs : tokenize source = .ok s)
    (hm : s.isIdent marker DeclKind.enum.marker) (place place' : QualifierPlace) :
    readEnumAt s (ScopeTree.build s) place marker =
      readEnumAt s (ScopeTree.build s) place' marker := by
  cases hhead : DeclHead.ofMarker s .enum marker with
  | error e => rw [readEnumAt, readEnumAt, hhead]; rfl
  | ok head =>
      have hplace := qualifierAt_index hs hm hhead place place'
      rw [readEnumAt, readEnumAt, hhead]
      show Except.bind (.ok head) _ = Except.bind (.ok head) _
      simp only [Except.bind, hplace]

theorem namedAtEitherPlace_of_readStruct (hs : tokenize source = .ok s) {d : StructDecl} {o : Nat}
    (hm : s.isIdent marker DeclKind.struct.marker)
    (h : readStruct s (ScopeTree.build s) marker = .ok (d, o)) :
    NamedAtEitherPlace s .struct marker d.name d.qualifier := by
  rw [readStruct_eq_at_name] at h
  simp only [readStructAt, bind_eq_ok] at h
  obtain ⟨head, hhead, close, -, fields, -, h⟩ := h
  cases h
  exact ⟨head, hhead, rfl, fun place => qualifierAt_index hs hm hhead place .name⟩

theorem namedAtEitherPlace_of_readEnum (hs : tokenize source = .ok s) {d : EnumDecl} {o : Nat}
    (hm : s.isIdent marker DeclKind.enum.marker)
    (h : readEnum s (ScopeTree.build s) marker = .ok (d, o)) :
    NamedAtEitherPlace s .enum marker d.name d.qualifier := by
  rw [readEnum_eq_at_marker] at h
  simp only [readEnumAt, bind_eq_ok] at h
  obtain ⟨head, hhead, close, -, h⟩ := h
  cases h
  exact ⟨head, hhead, rfl, fun place => qualifierAt_index hs hm hhead place .marker⟩

/-! ## Whole extractions -/

/-- An extraction is the same whether qualifiers are looked up at markers or at names. -/
theorem extractStructs_eq_at (hs : tokenize source = .ok s) (place : QualifierPlace) :
    extractStructs s (ScopeTree.build s) = s.cursor.collect DeclKind.struct.marker
      (resumeInBody (readStructAt s (ScopeTree.build s) place)) := by
  rw [extractStructs, readStruct_eq_at_name]
  apply Cursor.collect_congr
  intro m hm
  rw [resumeInBody, resumeInBody, readStructAt_congr hs hm .name place]

theorem extractEnums_eq_at (hs : tokenize source = .ok s) (place : QualifierPlace) :
    extractEnums s (ScopeTree.build s) = s.cursor.collect DeclKind.enum.marker
      (resumeInBody (readEnumAt s (ScopeTree.build s) place)) := by
  rw [extractEnums, readEnum_eq_at_marker]
  apply Cursor.collect_congr
  intro m hm
  rw [resumeInBody, resumeInBody, readEnumAt_congr hs hm .marker place]

/-- Marker and name of a declaration have the same qualifier, and so do those of every struct and
every enum that is extracted. Looking up all qualifiers at the markers gives the same structs and
enums, or the same failure, as looking them up at the names. -/
theorem qualifier_of_either_place (hs : tokenize source = .ok s) :
    (∀ kind marker head, s.isIdent marker (DeclKind.marker kind) →
      DeclHead.ofMarker s kind marker = .ok head →
        (ScopeTree.build s).qualifierAt (s.offset marker) =
          (ScopeTree.build s).qualifierAt (s.offset head.nameStart)) ∧
    (∀ ds, extractStructs s (ScopeTree.build s) = .ok ds →
      ∃ found, CoversMarkers s .struct (readStruct s (ScopeTree.build s)) ds found ∧
        ∀ f ∈ found, NamedAtEitherPlace s .struct f.marker f.decl.name f.decl.qualifier) ∧
    (∀ es, extractEnums s (ScopeTree.build s) = .ok es →
      ∃ found, CoversMarkers s .enum (readEnum s (ScopeTree.build s)) es found ∧
        ∀ f ∈ found, NamedAtEitherPlace s .enum f.marker f.decl.name f.decl.qualifier) ∧
    ∀ place,
      extractStructs s (ScopeTree.build s) = s.cursor.collect DeclKind.struct.marker
        (resumeInBody (readStructAt s (ScopeTree.build s) place)) ∧
      extractEnums s (ScopeTree.build s) = s.cursor.collect DeclKind.enum.marker
        (resumeInBody (readEnumAt s (ScopeTree.build s) place)) := by
  refine ⟨fun kind marker head hm h => ScopeTree.qualifierAt_marker_eq_name hs hm h,
    fun ds h => ?_, fun es h => ?_,
    fun place => ⟨extractStructs_eq_at hs place, extractEnums_eq_at hs place⟩⟩
  · obtain ⟨found, hfound⟩ :=
      coversMarkers_of_collect (fun m d o hm hd => opensBody_of_readStruct hm hd) h
    refine ⟨found, hfound, fun f hf => ?_⟩
    obtain ⟨hm, -, hread⟩ := hfound.is_decl f hf
    exact namedAtEitherPlace_of_readStruct hs hm hread
  · obtain ⟨found, hfound⟩ :=
      coversMarkers_of_collect (fun m d o hm hd => opensBody_of_readEnum hm hd) h
    refine ⟨found, hfound, fun f hf => ?_⟩
    obtain ⟨hm, -, hread⟩ := hfound.is_decl f hf
    exact namedAtEitherPlace_of_readEnum hs hm hread

/-- A struct whose marker and name stand in the same namespace, with a `namespace` in its head, and an
enum behind it. -/
def namespaceInHead : Text :=
  ("namespace A\x7bREFLECT_STRUCT struct namespace B\x7bint REFLECT(x);\x7d;" ++
    "enum class REFLECT_ENUM E\x7bX\x7d;\x7d").toList

theorem qualifier_of_either_place_head :
    ∃ s, tokenize namespaceInHead = .ok s ∧
      extractStructs s (ScopeTree.build s) = .ok [⟨"B".toList, "A".toList, ["x".toList]⟩] ∧
      (s.cursor.collect DeclKind.struct.marker (resumeInBody
        (readStructAt s (ScopeTree.build s) .marker))) =
          .ok [⟨"B".toList, "A".toList, ["x".toList]⟩] ∧
      (s.cursor.collect DeclKind.enum.marker (resumeInBody
        (readEnumAt s (ScopeTree.build s) .name))) =
          .ok [⟨"E".toList, "A".toList, ["X".toList]⟩] := by
  have hrun : (tokenize namespaceInHead >>= fun s => extract s (ScopeTree.build s)) =
      .ok ⟨[⟨"B".toList, "A".toList, ["x".toList]⟩], [⟨"E".toList, "A".toList, ["X".toList]⟩]⟩ := by
    decide +kernel
  obtain ⟨s, hs, hextract⟩ := bind_eq_ok.1 hrun
  obtain ⟨-, -, -, hplace⟩ := qualifier_of_either_place hs
  simp only [extract, bind_eq_ok] at hextract
  obtain ⟨ds, hds, es, hes, hextract⟩ := hextract
  cases hextract
  exact ⟨s, hs, hds, (hplace .marker).1 ▸ hds, (hplace .name).2 ▸ hes⟩

end HeaderReflection
