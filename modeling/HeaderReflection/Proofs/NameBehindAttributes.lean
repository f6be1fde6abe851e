/-
  HeaderReflection.Proofs.NameBehindAttributes

  Names of declarations with attributes and export macros ahead of them. The
  name is sought from behind, so nothing ahead of it gets into it, unless the
  clause behind it is found too early: the clause is taken to begin at the first
  colon behind the keyword, and that may be a colon of an attribute.
-/
import HeaderReflection.Proofs.AttributedHeads
import HeaderReflection.Proofs.BracePairs
import HeaderReflection.Proofs.MarkerCoverage

namespace HeaderReflection

namespace AttributedHead

variable {h : AttributedHead} {source : Text} {s : TokenStream} {base start : Nat}

/-! ## What is read behind the keyword -/

theorem attributesAt_le (h : AttributedHead) (base : Nat) : h.attributesAt base ≤ h.nameAt base :=
  Nat.le_add_right _ _

theorem lastAt_lt (h : AttributedHead) (base : Nat) : h.nameAt base ≤ h.lastAt base ∧
    h.lastAt base < h.clauseAt base ∧ h.clauseAt base ≤ h.bodyAt base := by
  refine ⟨Nat.le_add_right _ _, ?_, Nat.le_add_right _ _⟩
  rw [clauseAt_eq]
  omega

/-- A name that stands out is read, wherever between the start of the head and its attributes the
search begins. -/
theorem read_of_nameStandsOut (hat : s.ShapesAt base h.shapes) (marker : Nat) (hb : base ≤ start)
    (hle : start ≤ h.attributesAt base) (hout : h.NameStandsOut) :
    DeclHead.read s h.kind marker start = .ok (h.declHead base) := by
  obtain ⟨hcolon, hfinal, hmarker⟩ := hout
  have hattributes := h.attributesAt_le base
  obtain ⟨hlast, hclause, hbody⟩ := h.lastAt_lt base
  have hshape := hasShape_last hat
  have hstop : DeclHead.nameEnd s h.kind start (h.lastAt base + 1) = h.lastAt base + 1 := by
    apply DeclHead.nameEnd_of_name
    · rw [hshape.isIdent_eq]
      simpa [Shape.word] using hfinal
    · rw [hshape.isIdent_eq]
      simpa [Shape.word] using hmarker
  have hword : s.isWord (h.lastAt base) := by
    rw [hshape.isWord_eq]
    rfl
  have htext : ((List.range' (h.nameAt base) (h.lastAt base + 1 - h.nameAt base)).map
      s.text).flatten = h.name.text := by
    have hlen : h.lastAt base + 1 - h.nameAt base = h.name.shapes.length := by
      rw [NameParts.length_shapes, lastAt]
      omega
    rw [hlen, (shapesAt_name hat).map_text, NameParts.flatten_shapes]
  -- The end of the name is sought back from the clause, and its start back from that end.
  refine DeclHead.read_eq_ok.2 ⟨h.lastAt base + 1, find?_endsHead hat hb ?_, ?_, ?_, ?_, hword,
    ?_, htext.symm⟩
  · show start ≤ h.bodyAt base
    omega
  · show s.isPunct (h.bodyAt base) '\x7b'
    rw [(hasShape_body hat).isPunct_eq]
    rfl
  · show DeclHead.nameEnd s h.kind start ((s.findPunct start (h.bodyAt base) ':').getD
      (h.bodyAt base)) = _
    rw [findPunct_colon hat hcolon hb (by omega), nameEnd_clauseAt hat (by omega), hstop]
  · omega
  · exact (nameStartFrom_lastAt hat (by omega)).symm

/-- A name is sought before the first colon, so none stands in the attributes of a head that is read
with its name. -/
theorem ne_colon_of_read (hat : s.ShapesAt base h.shapes) {marker : Nat}
    (hle : start ≤ h.attributesAt base)
    (hread : DeclHead.read s h.kind marker start = .ok (h.declHead base)) :
    ∀ p ∈ h.attributes, p.1 ≠ .punct ':' := by
  obtain ⟨hlast, hclause, hbody⟩ := h.lastAt_lt base
  intro p hp hc
  obtain ⟨k, hk, hkn, hshape⟩ := (shapesAt_attributes hat).exists_index hp
  have hkn : k < h.nameAt base := hkn
  have hpunct : s.isPunct k ':' := by
    rw [hshape.isPunct_eq, hc]
    rfl
  obtain ⟨colon, hfound, hcolon⟩ := TokenStream.exists_findPunct_le hpunct
    (show start ≤ k by omega) (show k < h.bodyAt base by omega)
  have hlt : h.nameAt base < colon := (DeclHead.read_nameStart hread).2.2 colon hfound
  omega

/-- Before the last part of a name stands a separator, if the name has other parts. -/
theorem hasShape_before_last (hat : s.ShapesAt base h.shapes) (hne : h.name.outer ≠ []) :
    s.HasShape (h.lastAt base - 1) .colons := by
  have hrow := (shapesAt_name hat).left.last (NameParts.getLast?_outerShapes hne)
  rwa [NameParts.length_outerShapes] at hrow

/-- The last part of a name that is read is no word that may follow a name. -/
theorem not_skipped_of_read (hat : s.ShapesAt base h.shapes) {marker : Nat} (hb : base ≤ start)
    (hle : start ≤ h.attributesAt base)
    (hread : DeclHead.read s h.kind marker start = .ok (h.declHead base)) :
    ¬ (s.isIdent (h.lastAt base) "final".toList ∨ s.isIdent (h.lastAt base) h.kind.marker) := by
  intro hskip
  have hattributes := h.attributesAt_le base
  obtain ⟨hlast, hclause, hbody⟩ := h.lastAt_lt base
  obtain ⟨stop, -, -, hstop, hne, hword, hfirst, -⟩ := DeclHead.read_eq_ok.1 hread
  have hstop : DeclHead.nameEnd s h.kind start (h.lastAt base) = stop := by
    rw [← hstop]
    show _ = DeclHead.nameEnd s h.kind start ((s.findPunct start (h.bodyAt base) ':').getD
      (h.bodyAt base))
    rw [findPunct_colon hat (ne_colon_of_read hat hle hread) hb (by omega),
      nameEnd_clauseAt hat (by omega), DeclHead.nameEnd_of_skipped (by omega) hskip]
  -- Without its last part nothing is left of the name, or it ends with a separator.
  by_cases hnil : h.name.outer = []
  · have hplace : h.lastAt base = h.nameAt base := by
      rw [lastAt, hnil, List.length_nil, Nat.mul_zero, Nat.add_zero]
    have hbounds : start ≤ stop ∧ stop ≤ h.lastAt base :=
      hstop ▸ DeclHead.nameEnd_bounds (show start ≤ h.lastAt base by omega)
    have hfirst : h.nameAt base = DeclHead.nameStartFrom s start (stop - 1) := hfirst
    have hfirst_le : DeclHead.nameStartFrom s start (stop - 1) ≤ stop - 1 :=
      DeclHead.nameStartFrom_le
    omega
  · have hcolons := hasShape_before_last hat hnil
    have hpos : 0 < h.name.outer.length := List.length_pos_iff.2 hnil
    have hplace : h.lastAt base = h.nameAt base + 2 * h.name.outer.length := rfl
    have hstay : DeclHead.nameEnd s h.kind start (h.lastAt base - 1 + 1) =
        h.lastAt base - 1 + 1 := by
      apply DeclHead.nameEnd_of_name
      · rw [hcolons.isIdent_eq]
        rfl
      · rw [hcolons.isIdent_eq]
        rfl
    rw [Nat.sub_add_cancel (by omega), hstop] at hstay
    rw [hstay, hcolons.isWord_eq] at hword
    simp [Shape.colons] at hword

/-- If the name is read where it stands, it stands out. -/
theorem nameStandsOut_of_read (hat : s.ShapesAt base h.shapes) {marker : Nat} (hb : base ≤ start)
    (hle : start ≤ h.attributesAt base)
    (hread : DeclHead.read s h.kind marker start = .ok (h.declHead base)) : h.NameStandsOut := by
  have hskipped := not_skipped_of_read hat hb hle hread
  have hshape := hasShape_last hat
  rw [hshape.isIdent_eq, hshape.isIdent_eq] at hskipped
  refine ⟨ne_colon_of_read hat hle hread, ?_, ?_⟩
  · rintro heq
    simp [Shape.word, heq] at hskipped
  · rintro heq
    simp [Shape.word, heq] at hskipped

/-! ## From the marker to the name -/

theorem hasShape_marker (hat : s.ShapesAt base h.shapes) :
    s.HasShape (h.markerAt base) (.word h.kind.marker) := by
  have hlead := shapesAt_lead hat
  rw [lead] at hlead
  rw [markerAt]
  split
  · next hfirst =>
    rw [if_pos hfirst] at hlead
    exact hlead.head
  · next hfirst =>
    rw [if_neg hfirst] at hlead
    have hmarker := hlead.right.head
    rwa [List.length_map] at hmarker

theorem isIdent_marker (hat : s.ShapesAt base h.shapes) :
    s.isIdent (h.markerAt base) h.kind.marker := by
  rw [(hasShape_marker hat).isIdent_eq]
  simp [Shape.word]

/-- The index of a keyword's first word. -/
def keywordAt (h : AttributedHead) (base : Nat) : Nat :=
  if h.markerFirst then base + 1 else base

theorem shapesAt_keyword (hat : s.ShapesAt base h.shapes) :
    s.ShapesAt (h.keywordAt base) (h.keyword.map .word) := by
  have hlead := shapesAt_lead hat
  rw [lead] at hlead
  rw [keywordAt]
  split
  · next hfirst =>
    rw [if_pos hfirst] at hlead
    exact hlead.tail
  · next hfirst =>
    rw [if_neg hfirst] at hlead
    exact hlead.left

theorem keyword_of_struct (hkind : h.kind = .struct) :
    h.keyword = ["struct".toList] ∨ h.keyword = ["class".toList] := by
  simpa [hkind, DeclKind.keywords] using h.keyword_mem

theorem keyword_of_enum (hkind : h.kind = .enum) :
    h.keyword = ["enum".toList, "class".toList] ∨ h.keyword = ["enum".toList, "struct".toList] := by
  simpa [hkind, DeclKind.keywords] using h.keyword_mem

theorem isStructKeyword_keywordAt (hat : s.ShapesAt base h.shapes) (hkind : h.kind = .struct)
    (halone : h.KeywordStandsAlone base s) : DeclHead.isStructKeyword s (h.keywordAt base) := by
  have hrow := shapesAt_keyword hat
  have hword : (s.isIdent (h.keywordAt base) "struct".toList ||
      s.isIdent (h.keywordAt base) "class".toList) = true := by
    rcases keyword_of_struct hkind with hkeyword | hkeyword
    · rw [hkeyword] at hrow
      rw [hrow.head.isIdent_eq]
      rfl
    · rw [hkeyword] at hrow
      rw [hrow.head.isIdent_eq, hrow.head.isIdent_eq]
      rfl
  have hbefore : (decide (0 < h.keywordAt base) &&
      s.isIdent (h.keywordAt base - 1) "enum".toList) = false := by
    rw [keywordAt]
    split
    · next hfirst =>
      -- The marker stands right before the keyword, and it is not `enum`.
      have hmarker := hasShape_marker hat
      rw [markerAt, if_pos hfirst, hkind] at hmarker
      rw [Nat.add_sub_cancel, hmarker.isIdent_eq]
      rfl
    · next hfirst =>
      by_cases hpos : 0 < base
      · rw [halone hkind (by simpa using hfirst) hpos, Bool.and_false]
      · simp [hpos]
  rw [DeclHead.isStructKeyword, hword, hbefore]
  rfl

theorem isEnumKeyword_keywordAt (hat : s.ShapesAt base h.shapes) (hkind : h.kind = .enum) :
    DeclHead.isEnumKeyword s (h.keywordAt base) := by
  have hrow := shapesAt_keyword hat
  rcases keyword_of_enum hkind with hkeyword | hkeyword
  · rw [hkeyword] at hrow
    rw [DeclHead.isEnumKeyword, hrow.head.isIdent_eq, hrow.tail.head.isIdent_eq]
    rfl
  · rw [hkeyword] at hrow
    rw [DeclHead.isEnumKeyword, hrow.head.isIdent_eq, hrow.tail.head.isIdent_eq,
      hrow.tail.head.isIdent_eq]
    rfl

theorem attributesAt_eq : h.attributesAt base = base + h.keyword.length + 1 := by
  rw [attributesAt, lead]
  split
  · rw [List.length_cons, List.length_map]
    rfl
  · rw [List.length_append, List.length_map]
    rfl

theorem markerAt_lt (h : AttributedHead) (base : Nat) : h.markerAt base < h.bodyAt base := by
  have hattributes := h.attributesAt_le base
  have hname := h.lastAt_lt base
  rw [attributesAt_eq] at hattributes
  rw [markerAt]
  split <;> omega

theorem le_markerAt (h : AttributedHead) (base : Nat) : base ≤ h.markerAt base := by
  rw [markerAt]
  split <;> omega

/-- The brace at the end of a head opens the body of its marker. -/
theorem opensBody (hat : s.ShapesAt base h.shapes) :
    DeclHead.OpensBody s (h.markerAt base) (h.bodyAt base) := by
  refine ⟨h.markerAt_lt base, ?_, fun k hk hkb => ?_⟩
  · rw [(hasShape_body hat).isPunct_eq]
    rfl
  · have := h.le_markerAt base
    exact endsHead_eq_false hat (by omega) hkb

/-- From the marker the search for the name starts in front of the attributes. Another keyword right
before the marker only makes it start a little earlier. -/
theorem exists_afterKeyword (hat : s.ShapesAt base h.shapes)
    (halone : h.KeywordStandsAlone base s) :
    ∃ start, DeclHead.afterKeyword s h.kind (h.markerAt base) = .ok start ∧ base ≤ start ∧
      start ≤ h.attributesAt base := by
  rw [attributesAt_eq, markerAt]
  -- If the marker comes first, the search behind it finds the keyword; or else that stands right
  -- before the marker.
  cases hkind : h.kind with
  | struct =>
      have hkey := isStructKeyword_keywordAt hat hkind halone
      have hlen : h.keyword.length = 1 := by
        rcases keyword_of_struct hkind with hkeyword | hkeyword <;> rw [hkeyword] <;> rfl
      rw [keywordAt] at hkey
      by_cases hfirst : h.markerFirst = true
      · rw [if_pos hfirst] at hkey ⊢
        obtain ⟨start, hstart, hbounds⟩ := DeclHead.exists_afterKeyword_struct hkey
        exact ⟨start, hstart, by omega, by omega⟩
      · rw [if_neg hfirst] at hkey ⊢
        rw [hlen]
        exact ⟨base + 1, DeclHead.afterKeyword_of_before hkey, by omega, by omega⟩
  | enum =>
      have hkey := isEnumKeyword_keywordAt hat hkind
      have hlen : h.keyword.length = 2 := by
        rcases keyword_of_enum hkind with hkeyword | hkeyword <;> rw [hkeyword] <;> rfl
      rw [keywordAt] at hkey
      by_cases hfirst : h.markerFirst = true
      · rw [if_pos hfirst] at hkey ⊢
        obtain ⟨start, hstart, hbounds⟩ := DeclHead.exists_afterKeyword_enum hkey
        exact ⟨start, hstart, by omega, by omega⟩
      · rw [if_neg hfirst] at hkey ⊢
        rw [hlen]
        exact ⟨base + 3, DeclHead.afterKeyword_of_before_enum hkey, by omega, by omega⟩

/-- The marker leads to the name and the body of its head just when the name stands out. -/
theorem ofMarker_eq_ok_iff (hat : s.ShapesAt base h.shapes)
    (halone : h.KeywordStandsAlone base s) :
    DeclHead.ofMarker s h.kind (h.markerAt base) = .ok (h.declHead base) ↔ h.NameStandsOut := by
  obtain ⟨start, hstart, hb, hle⟩ := exists_afterKeyword hat halone
  rw [DeclHead.ofMarker_eq_ok]
  constructor
  · rintro ⟨start', hstart', hread⟩
    obtain rfl := Except.ok.inj (hstart.symm.trans hstart')
    exact nameStandsOut_of_read hat hb hle hread
  · intro hout
    exact ⟨start, hstart, read_of_nameStandsOut hat _ hb hle hout⟩

/-! ## What is read and extracted -/

/-- The declaration of the marker is read under the head's name. A struct is read if its fields are,
and an enum always. -/
def IsRead (h : AttributedHead) (s : TokenStream) (scopes : ScopeTree) (base : Nat) : Prop :=
  ∃ close, s.closer (h.bodyAt base) = some close ∧
    match h.kind with
    | .struct => readStruct s scopes (h.markerAt base) = do
        let fields ← collectFields s (h.bodyAt base) close
        return (⟨h.name.text, scopes.qualifierAt (s.offset (h.nameAt base)), fields⟩,
          h.bodyAt base)
    | .enum => readEnum s scopes (h.markerAt base) =
        .ok (⟨h.name.text, scopes.qualifierAt (s.offset (h.markerAt base)),
          collectCases s (h.bodyAt base) close⟩, h.bodyAt base)

/-- An extraction that succeeds reports the declaration of the marker under the head's name. -/
def IsExtracted (h : AttributedHead) (s : TokenStream) (scopes : ScopeTree) (base : Nat) : Prop :=
  match h.kind with
  | .struct => ∀ ds, extractStructs s scopes = .ok ds → ∃ d ∈ ds, d.name = h.name.text ∧
      readStruct s scopes (h.markerAt base) = .ok (d, h.bodyAt base)
  | .enum => ∀ es, extractEnums s scopes = .ok es → ∃ e ∈ es, e.name = h.name.text ∧
      readEnum s scopes (h.markerAt base) = .ok (e, h.bodyAt base)

/-- No marker stands before that of the head without a brace or a semicolon between them. -/
def IsFirst (h : AttributedHead) (s : TokenStream) (base : Nat) : Prop :=
  ∀ k, k < h.markerAt base → s.isIdent k h.kind.marker →
    ∃ e, k < e ∧ e < h.markerAt base ∧ DeclHead.endsHead s e

theorem isRead (hs : tokenize source = .ok s) (hat : s.ShapesAt base h.shapes)
    (halone : h.KeywordStandsAlone base s) (hout : h.NameStandsOut) (scopes : ScopeTree) :
    h.IsRead s scopes base := by
  obtain ⟨start, hstart, hread⟩ :=
    DeclHead.ofMarker_eq_ok.1 ((ofMarker_eq_ok_iff hat halone).2 hout)
  have hbrace : s.isPunct (h.bodyAt base) '\x7b' := by
    rw [(hasShape_body hat).isPunct_eq]
    rfl
  obtain ⟨close, hclose⟩ := TokenStream.exists_closer hs hbrace
  have hbody : bodyClose s (h.bodyAt base) = .ok close := by rw [bodyClose, hclose]
  refine ⟨close, hclose, ?_⟩
  -- Keyword, head and closing brace are found, and for an enum nothing else can fail.
  cases hkind : h.kind with
  | struct =>
      rw [hkind] at hstart hread
      show readStruct s scopes (h.markerAt base) = _
      rw [readStruct, hstart]
      show (DeclHead.read s .struct _ start >>= _) = _
      rw [hread]
      show (bodyClose s (h.bodyAt base) >>= _) = _
      rw [hbody]
      rfl
  | enum =>
      rw [hkind] at hstart hread
      show readEnum s scopes (h.markerAt base) = _
      rw [readEnum, hstart]
      show (DeclHead.read s .enum _ start >>= _) = _
      rw [hread]
      show (bodyClose s (h.bodyAt base) >>= _) = _
      rw [hbody]
      rfl

theorem isExtracted (hs : tokenize source = .ok s) (hat : s.ShapesAt base h.shapes)
    (halone : h.KeywordStandsAlone base s) (hout : h.NameStandsOut) (hfirst : h.IsFirst s base)
    (scopes : ScopeTree) : h.IsExtracted s scopes base := by
  obtain ⟨close, -, hread⟩ := isRead hs hat halone hout scopes
  have hm := isIdent_marker hat
  rw [IsFirst] at hfirst
  rw [IsExtracted]
  cases hkind : h.kind with
  | struct =>
      intro ds hds
      rw [hkind] at hread hm hfirst
      obtain ⟨found, hfound⟩ :=
        coversMarkers_of_collect (fun m d o hm hd => opensBody_of_readStruct hm hd) hds
      obtain ⟨d, hd, o, -, hdo⟩ := hfound.exists_decl_of_first hm hfirst
      obtain ⟨fields, -, hfields⟩ := bind_eq_ok.1 (hread.symm.trans hdo)
      cases hfields
      exact ⟨_, hd, rfl, hdo⟩
  | enum =>
      intro es hes
      rw [hkind] at hread hm hfirst
      obtain ⟨found, hfound⟩ :=
        coversMarkers_of_collect (fun m d o hm hd => opensBody_of_readEnum hm hd) hes
      obtain ⟨e, he, o, -, heo⟩ := hfound.exists_decl_of_first hm hfirst
      cases hread.symm.trans heo
      exact ⟨_, he, rfl, heo⟩

end AttributedHead

/-- Attributes and export macros ahead of a name stay out of it just as long as none of them holds a
colon: then, and only then, the marker leads to the name and the body of its head, as long as the name
does not end with a word that may follow a name. The declaration is read under that name, and an
extraction reports it. -/
theorem name_behind_attributes {source : Text} {s : TokenStream} {base : Nat}
    (hs : tokenize source = .ok s) (h : AttributedHead) (hat : s.ShapesAt base h.shapes)
    (halone : h.KeywordStandsAlone base s) :
    (DeclHead.ofMarker s h.kind (h.markerAt base) = .ok (h.declHead base) ↔ h.NameStandsOut) ∧
    (h.NameStandsOut → ∀ scopes, h.IsRead s scopes base ∧
      (h.IsFirst s base → h.IsExtracted s scopes base)) := by
  refine ⟨AttributedHead.ofMarker_eq_ok_iff hat halone, fun hout scopes => ?_⟩
  exact ⟨AttributedHead.isRead hs hat halone hout scopes,
    fun hfirst => AttributedHead.isExtracted hs hat halone hout hfirst scopes⟩

/-- A class with an attribute and an export macro ahead of its qualified name. -/
def exportedClass : AttributedHead where
  kind := .struct
  markerFirst := false
  keyword := ["class".toList]
  attributes := [.punct '[', .punct '[', .word "nodiscard".toList, .punct ']', .punct ']',
    .word "EXPORT".toList, .punct '(', .word "a".toList, .punct ',', .word "b".toList, .colons,
    .word "c".toList, .punct ')']
  name := ⟨["A".toList], "N".toList⟩
  isFinal := true
  clause := some [.word "public".toList, .word "B".toList]
  keyword_mem := by decide
  attributePart :=
    @AttributePart.squares [.word "nodiscard".toList] _ (.token (by decide) rfl .nil)
      (@AttributePart.call "EXPORT".toList [.word "a".toList, .punct ',', .word "b".toList, .colons,
          .word "c".toList] [] (.token (by decide) rfl (.token (by decide) rfl
            (.token (by decide) rfl (.token (by decide) rfl (.token (by decide) rfl .nil))))) .nil)
  clause_stays := by decide

theorem name_behind_attributes_exported :
    ∃ s, tokenize ("class REFLECT_STRUCT [[nodiscard]] EXPORT(a, b::c) " ++
        "A::N final : public B\x7b\x7d;").toList = .ok s ∧
      s.ShapesAt 0 exportedClass.shapes ∧
      DeclHead.ofMarker s .struct 1 = .ok ⟨15, "A::N".toList, 22⟩ ∧
      ∃ d, extractStructs s (ScopeTree.build s) = .ok [d] ∧ d.name = "A::N".toList := by
  have hrun : (tokenize ("class REFLECT_STRUCT [[nodiscard]] EXPORT(a, b::c) " ++
      "A::N final : public B\x7b\x7d;").toList >>= fun s =>
        Except.ok (decide (s.ShapesAt 0 exportedClass.shapes),
          s.isIdent 0 DeclKind.struct.marker, extractStructs s (ScopeTree.build s))) =
        .ok (true, false, .ok [⟨"A::N".toList, [], []⟩]) := by
    decide +kernel
  obtain ⟨s, hs, hfacts⟩ := bind_eq_ok.1 hrun
  simp only [Except.ok.injEq, Prod.mk.injEq, decide_eq_true_eq] at hfacts
  obtain ⟨hat, hbefore, hstructs⟩ := hfacts
  have hout : exportedClass.NameStandsOut := ⟨by decide, by decide, by decide⟩
  have hfirst : exportedClass.IsFirst s 0 := by
    intro k hk hm
    have hk : k < 1 := hk
    obtain rfl : k = 0 := by omega
    simp [exportedClass, hbefore] at hm
  obtain ⟨hiff, hread⟩ := name_behind_attributes hs exportedClass hat (fun _ _ h => absurd h (by decide))
  obtain ⟨d, hd, hname, -⟩ := (hread hout (ScopeTree.build s)).2 hfirst _ hstructs
  obtain rfl := List.mem_singleton.1 hd
  exact ⟨s, hs, hat, hiff.2 hout, _, hstructs, hname⟩

/-- A struct with an attribute that names its namespace once for all, with a colon. -/
def colonAttribute : AttributedHead where
  kind := .struct
  markerFirst := true
  keyword := ["struct".toList]
  attributes := [.punct '[', .punct '[', .word "using".toList, .word "gnu".toList, .punct ':',
    .word "packed".toList, .punct ']', .punct ']']
  name := ⟨[], "N".toList⟩
  isFinal := false
  clause := none
  keyword_mem := by decide
  attributePart :=
    @AttributePart.squares [.word "using".toList, .word "gnu".toList, .punct ':',
        .word "packed".toList] [] (.token (by decide) rfl (.token (by decide) rfl
          (.token (by decide) rfl (.token (by decide) rfl .nil)))) .nil
  clause_stays := by decide

/-- The word before the colon of the attribute is taken for the name. -/
theorem name_ne_of_colon_attribute :
    ∃ s, tokenize "REFLECT_STRUCT struct [[using gnu: packed]] N\x7b\x7d;".toList = .ok s ∧
      s.ShapesAt 0 colonAttribute.shapes ∧ colonAttribute.KeywordStandsAlone 0 s ∧
      extractStructs s (ScopeTree.build s) = .ok [⟨"gnu".toList, [], []⟩] ∧
      colonAttribute.name.text = "N".toList := by
  have hrun : (tokenize "REFLECT_STRUCT struct [[using gnu: packed]] N\x7b\x7d;".toList >>=
      fun s => Except.ok (decide (s.ShapesAt 0 colonAttribute.shapes),
        extractStructs s (ScopeTree.build s))) =
        .ok (true, .ok [⟨"gnu".toList, [], []⟩]) := by
    decide +kernel
  obtain ⟨s, hs, hfacts⟩ := bind_eq_ok.1 hrun
  simp only [Except.ok.injEq, Prod.mk.injEq, decide_eq_true_eq] at hfacts
  obtain ⟨hat, hstructs⟩ := hfacts
  exact ⟨s, hs, hat, fun _ hfirst => absurd hfirst (by decide), hstructs, rfl⟩

end HeaderReflection
