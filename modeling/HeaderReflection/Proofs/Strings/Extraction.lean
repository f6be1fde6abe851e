/-
  HeaderReflection.Proofs.Strings.Extraction

  Reading a header whose fields have strings as default values. Each string is
  one token in the normal form, so the fields are found whatever the strings
  hold, if normalization has left them as strings.
-/
import HeaderReflection.Proofs.Body
import HeaderReflection.Proofs.Head
import HeaderReflection.Proofs.Header.Symbols
import HeaderReflection.Proofs.Qualifier
import HeaderReflection.Proofs.Strings.Escaping

namespace HeaderReflection

namespace ScopeTree

/-- Without the word there is no namespace, and no qualifier. -/
theorem qualifierAt_eq_nil {s : TokenStream} (h : ∀ i, s.isIdent i "namespace".toList = false)
    (offset : Nat) : (build s).qualifierAt offset = [] := by
  have hat : ∀ i, Namespace.at? s i = none := by
    intro i
    rw [Namespace.at?, namespaceBody, h i]
    rfl
  have hall : Namespace.all s = [] := by
    rw [Namespace.all, Namespace.below, List.filterMap_eq_nil_iff]
    exact fun i _ => hat i
  have hsize : (build s).nodes.size = 0 := by
    rw [size_build, hall]
    rfl
  simp [qualifierAt, hsize, chain, Text.joinWith]

end ScopeTree

namespace StringField

variable {f : StringField} {fs : List StringField} {s : TokenStream} {front back : List Piece}
variable {p : Piece} {k : Keyword}

/-! ## Words of a header -/

/-- The field marker is the only keyword in a field. -/
theorem lexeme_ne_of_mem_pieces (hk : k ∈ Keyword.reserved) (hne : k ≠ .reflect) (hp : p ∈ f.pieces)
    (hkind : p.kind = .ident) : p.lexeme ≠ k.text := by
  simp only [pieces, markedPieces, openingPieces, equalsPieces, List.mem_append, List.mem_cons,
    List.not_mem_nil, or_false] at hp
  rcases hp with ((rfl | rfl | rfl) | rfl | rfl | rfl) | rfl | rfl
  · cases k <;> decide
  · cases k <;> first | exact absurd rfl hne | decide
  · cases hkind
  · exact f.unreserved k hk
  · cases hkind
  · cases hkind
  · cases hkind
  · cases hkind

/-- The keywords of a header are its first two tokens and the field markers. -/
theorem lexeme_ne_of_mem_fields (hk : k ∈ Keyword.reserved) (hne : k ≠ .reflect)
    (hp : p ∈ fs.flatMap pieces ++ epiloguePieces) (hkind : p.kind = .ident) : p.lexeme ≠ k.text := by
  rcases List.mem_append.1 hp with hp | hp
  · obtain ⟨f, -, hp⟩ := List.mem_flatMap.1 hp
    exact lexeme_ne_of_mem_pieces hk hne hp hkind
  · simp only [epiloguePieces, List.mem_cons, List.not_mem_nil, or_false] at hp
    rcases hp with rfl | rfl
    · cases hkind
    · cases hkind

theorem isIdent_header (h : Shows s (headerPieces fs)) (hk : k ∈ Keyword.reserved)
    (hne : k ∉ [.reflect, .struct, .reflectStruct]) (i : Nat) : s.isIdent i k.text = false := by
  simp only [List.mem_cons, List.not_mem_nil, or_false, not_or] at hne
  have hshows : Shows s ([] ++ headerPieces fs) := h
  refine hshows.isIdent_eq_false (fun p hp hkind => ?_) (Nat.zero_le i)
  rw [headerPieces, List.mem_append] at hp
  rcases hp with hp | hp
  · simp only [prologuePieces, List.mem_cons, List.not_mem_nil, or_false] at hp
    rcases hp with rfl | rfl | rfl | rfl
    · cases k <;> first | exact absurd rfl hne.2.2 | decide
    · cases k <;> first | exact absurd rfl hne.2.1 | decide
    · cases k <;> decide
    · cases hkind
  · exact lexeme_ne_of_mem_fields hk hne.1 hp hkind

/-! ## Fields -/

theorem length_pieces (f : StringField) : f.pieces.length = 8 := rfl

theorem length_flatMap_pieces (fs : List StringField) : (fs.flatMap pieces).length = 8 * fs.length := by
  induction fs with
  | nil => rfl
  | cons f fs ih =>
      rw [List.flatMap_cons, List.length_append, length_pieces, ih, List.length_cons]
      omega

theorem trim_name (f : StringField) : f.name.trim = f.name := by
  have htrim : (f.name ++ []).trim = f.name :=
    Text.trim_append (fun c hc => isBlank_of_isWordChar (isWordChar_of_mem hc)) (by simp)
  rwa [List.append_nil] at htrim

/-- A field is collected. -/
theorem goes_pieces {close : Nat} (h : Shows s (front ++ (f.pieces ++ back)))
    (hclose : front.length + 8 ≤ close) :
    Goes (collectFieldsFrom s close) front.length (front.length + 8) [f.name] := by
  have hat : ∀ {j : Nat} {p : Piece}, f.pieces[j]? = some p →
      (front ++ (f.pieces ++ back))[front.length + j]? = some p := by
    intro j p hp
    have hlt : j < f.pieces.length := (List.getElem?_eq_some_iff.1 hp).1
    rw [List.getElem?_append_right (Nat.le_add_right _ _), Nat.add_sub_cancel_left,
      List.getElem?_append_left hlt, hp]
  have hword : ∀ {j : Nat} {p : Piece}, f.pieces[j]? = some p → ∀ name,
      s.isIdent (front.length + j) name = (p.kind == .ident && p.lexeme == name) := fun hp =>
    h.isIdent_eq (hat hp)
  have hmark : ∀ {j : Nat} {p : Piece}, f.pieces[j]? = some p → ∀ c,
      s.isPunct (front.length + j) c = (p.kind == .punct c) := fun hp => h.isPunct_eq (hat hp)
  have htext : s.textBetween (front.length + 3) (front.length + 4) = f.name := by
    have hsplit : front ++ (f.pieces ++ back) = (front ++ openingPieces) ++ ([.word f.name []] ++
        .mark .closeParen [' '] ::
          (.mark .equals [' '] :: .string f.content :: .mark .semicolon [] :: back)) := by
      rw [List.append_assoc]
      rfl
    have hbetween := h.textBetween_eq hsplit (by simp)
    rw [List.length_append] at hbetween
    refine Eq.trans hbetween ?_
    simp [Piece.text, Piece.word]
  have hfield : Goes (collectFieldsFrom s close) (front.length + 1) (front.length + 5)
      [(s.textBetween (front.length + 3) (front.length + 4)).trim] :=
    goes_collectFieldsFrom ((hword (j := 1) rfl _).trans rfl) ((hmark (j := 2) rfl _).trans rfl)
      ((hmark (j := 3) rfl _).trans rfl) ((hmark (j := 4) rfl _).trans rfl) (by omega)
  rw [htext, trim_name] at hfield
  -- The type before the marker and the default value behind it are no markers.
  have hskips := skips_collectFieldsFrom s close
  have htype : collectFieldsFrom s close front.length =
      collectFieldsFrom s close (front.length + 1) :=
    hskips _ (by omega) ((hword (j := 0) rfl _).trans rfl)
  have hrest : collectFieldsFrom s close (front.length + 5) =
      collectFieldsFrom s close (front.length + 8) := by
    refine hskips.eq (by omega) (by omega) fun i hi hi' => ?_
    obtain rfl | rfl | rfl :
        i = front.length + 5 ∨ i = front.length + 6 ∨ i = front.length + 7 := by omega
    · exact (hword (j := 5) rfl _).trans rfl
    · exact (hword (j := 6) rfl _).trans rfl
    · exact (hword (j := 7) rfl _).trans rfl
  exact (hfield.before hrest).after htype

theorem goes_fields {close : Nat} (h : Shows s (front ++ (fs.flatMap pieces ++ back)))
    (hclose : front.length + 8 * fs.length ≤ close) :
    Goes (collectFieldsFrom s close) front.length (front.length + 8 * fs.length) (fs.map name) := by
  induction fs generalizing front with
  | nil => exact goes_of_eq rfl
  | cons f fs ih =>
      rw [List.length_cons] at hclose ⊢
      rw [List.flatMap_cons, List.append_assoc] at h
      have hfirst : Goes (collectFieldsFrom s close) front.length (front.length + 8) [f.name] :=
        goes_pieces h (by omega)
      rw [← List.append_assoc] at h
      have hlen : (front ++ f.pieces).length = front.length + 8 := by
        rw [List.length_append, length_pieces]
      have hrest := ih h (by omega)
      rw [hlen, show front.length + 8 + 8 * fs.length = front.length + 8 * (fs.length + 1) by omega]
        at hrest
      exact hfirst.trans hrest

/-! ## The struct -/

theorem balanced_pieces (fs : List StringField) :
    Balanced ((fs.flatMap pieces).map (·.kind)) := by
  refine Balanced.of_forall fun k hk => ?_
  obtain ⟨p, hp, rfl⟩ := List.mem_map.1 hk
  obtain ⟨f, -, hp⟩ := List.mem_flatMap.1 hp
  have hkinds : ∀ k ∈ f.pieces.map (·.kind), k ≠ .punct '\x7b' ∧ k ≠ .punct '\x7d' := by
    have heq : f.pieces.map (·.kind) = [.ident, .ident, .punct '(', .ident, .punct ')', .punct '=',
      .literal, .punct ';'] := rfl
    rw [heq]
    decide
  exact hkinds _ (List.mem_map_of_mem hp)

theorem balanced_headerPieces (fs : List StringField) :
    Balanced ((headerPieces fs).map (·.kind)) := by
  have hbody : Balanced (.punct '\x7b' :: ((fs.flatMap pieces).map (·.kind) ++
      .punct '\x7d' :: [.punct ';'])) :=
    .braces (balanced_pieces fs) (.of_forall (by decide))
  have hhead : Balanced [.ident, .ident, .ident] := .of_forall (by decide)
  rw [headerPieces, List.map_append, List.map_append]
  exact hhead.append hbody

theorem closer_header (h : Shows s (headerPieces fs)) {source : Text}
    (hs : tokenize source = .ok s) : s.closer 3 = some (4 + 8 * fs.length) := by
  have hsplit : headerPieces fs = prologuePieces.take 3 ++ .mark .openBrace [] ::
      (fs.flatMap pieces ++ .mark .closeBrace [] :: [.mark .semicolon []]) := rfl
  rw [hsplit] at h
  have hcloser := h.closer_eq hs rfl (balanced_pieces fs) rfl
  rwa [length_flatMap_pieces] at hcloser

theorem collectFields_header (h : Shows s (headerPieces fs)) :
    collectFields s 3 (4 + 8 * fs.length) = .ok (fs.map name) := by
  have hfields : Goes (collectFieldsFrom s (4 + 8 * fs.length)) 4 (4 + 8 * fs.length) (fs.map name) :=
    goes_fields h (Nat.le_refl _)
  have hend : collectFieldsFrom s (4 + 8 * fs.length) (4 + 8 * fs.length) = .ok [] :=
    collectFieldsFrom_of_none (TokenStream.findIdent_eq_none.2 (by omega))
  rw [Goes, hend] at hfields
  rw [collectFields, hfields]
  exact congrArg Except.ok (List.append_nil _)

/-- The head of the struct is read from its marker. -/
theorem read_header (h : Shows s (headerPieces fs)) :
    DeclHead.afterKeyword s .struct 0 = .ok 2 ∧
      DeclHead.read s .struct 0 2 = .ok ⟨2, "S".toList, 3⟩ := by
  have hmarker : (headerPieces fs)[0]? = some (.word "REFLECT_STRUCT".toList [' ']) := rfl
  have hkeyword : (headerPieces fs)[1]? = some (.word "struct".toList [' ']) := rfl
  have hname : (headerPieces fs)[2]? = some (.word "S".toList []) := rfl
  have hbrace : (headerPieces fs)[3]? = some (.mark .openBrace []) := rfl
  constructor
  · refine DeclHead.afterKeyword_of_next rfl ?_
    have hstruct : s.isIdent 1 "struct".toList = true := (h.isIdent_eq hkeyword _).trans (by decide)
    have henum : s.isIdent 0 "enum".toList = false := (h.isIdent_eq hmarker _).trans (by decide)
    rw [DeclHead.isStructKeyword, hstruct, henum]
    rfl
  · have hread : DeclHead.read s .struct 0 2 = .ok ⟨2, s.text 2, 3⟩ := by
      refine DeclHead.read_of_word (fun k hk hk' c => ?_) ((h.isPunct_eq hbrace _).trans rfl)
        ((h.isWord_eq hname).trans rfl) ((h.isIdent_eq hname _).trans (by decide))
        ((h.isIdent_eq hname _).trans (by decide)) (Nat.le_refl 2) (by omega)
      obtain rfl : k = 2 := by omega
      exact (h.isPunct_eq hname c).trans rfl
    rw [hread, h.text_eq hname]
    rfl

/-- The struct is read with all fields. -/
theorem readStruct_header (h : Shows s (headerPieces fs)) {source : Text}
    (hs : tokenize source = .ok s) :
    readStruct s (ScopeTree.build s) 0 = .ok (⟨"S".toList, [], fs.map name⟩, 3) := by
  obtain ⟨hstart, hread⟩ := read_header h
  have hnamespace : ∀ i, s.isIdent i Keyword.namespaceWord.text = false :=
    isIdent_header h (by decide) (by decide)
  have hqualifier : ∀ offset, (ScopeTree.build s).qualifierAt offset = [] :=
    ScopeTree.qualifierAt_eq_nil hnamespace
  simp only [readStruct, hstart, hread, bodyClose, closer_header h hs, collectFields_header h,
    hqualifier, bind, Except.bind]
  rfl

/-! ## The whole header -/

theorem extractStructs_header (h : Shows s (headerPieces fs)) {source : Text}
    (hs : tokenize source = .ok s) :
    extractStructs s (ScopeTree.build s) = .ok [⟨"S".toList, [], fs.map name⟩] := by
  have hmarker : s.isIdent 0 DeclKind.struct.marker :=
    (h.isIdent_eq (show (headerPieces fs)[0]? = _ from rfl) _).trans (by decide)
  have hresume : resumeInBody (readStruct s (ScopeTree.build s)) 0 =
      .ok (⟨"S".toList, [], fs.map name⟩, 4) := by
    rw [resumeInBody, readStruct_header h hs]
    rfl
  -- Behind the marker of the struct there is no other.
  have hrest : ∀ i, 4 ≤ i → s.isIdent i Keyword.reflectStruct.text = false := fun i hi =>
    h.isIdent_eq_false (fun p hp hkind =>
      lexeme_ne_of_mem_fields (by decide) (by decide) hp hkind) hi
  have hskips := skips_collect s DeclKind.struct.marker
    (resumeInBody (readStruct s (ScopeTree.build s)))
  have hsize : 4 ≤ s.size := by
    rw [h.size_eq, headerPieces, List.length_append]
    exact Nat.le_add_right 4 _
  exact collect_of_goes (goes_collect hmarker hresume (by omega))
    (goes_of_eq (hskips.eq hsize (Nat.le_refl _) fun i hi _ => hrest i hi))

theorem extractEnums_header (h : Shows s (headerPieces fs)) :
    extractEnums s (ScopeTree.build s) = .ok [] := by
  have hnone : ∀ i, s.isIdent i DeclKind.enum.marker = false :=
    isIdent_header (k := .reflectEnum) h (by decide) (by decide)
  exact Cursor.collect_of_none (TokenStream.findIdent_eq_none.2 fun i _ _ => hnone i)

/-- A header with contained strings is extracted with all its fields. -/
theorem extractSource_of_contained (hfs : ∀ f ∈ fs, f.Contained) :
    extractSource (header fs) = .ok ⟨[⟨"S".toList, [], fs.map name⟩], []⟩ := by
  obtain ⟨gs, hnames, hnormal⟩ := exists_normalize_eq_textOf hfs
  obtain ⟨s, hs, hshows⟩ := exists_shows (cutOff_headerPieces gs) (balanced_headerPieces gs)
  have hextract : extract s (ScopeTree.build s) = .ok ⟨[⟨"S".toList, [], gs.map name⟩], []⟩ :=
    extract_eq_ok.2 ⟨extractStructs_header hshows hs, extractEnums_header hshows⟩
  rw [hnames] at hextract
  exact extractSource_eq_ok.2 ⟨_, s, hnormal, hs, hextract⟩

/-- The fields of a header are found whatever its strings hold, if each of them is contained. A header
with one field is extracted only then. -/
theorem extractSource_header :
    (∀ fs : List StringField, (∀ f ∈ fs, f.Contained) →
      extractSource (header fs) = .ok ⟨[⟨"S".toList, [], fs.map name⟩], []⟩) ∧
    ∀ f : StringField, f.Contained ↔
      extractSource (header [f]) = .ok ⟨[⟨"S".toList, [], [f.name]⟩], []⟩ := by
  refine ⟨fun fs => extractSource_of_contained, fun f => ⟨fun hf => ?_, fun h => ?_⟩⟩
  · exact extractSource_of_contained (by simpa using hf)
  · by_contra hf
    exact extractSource_ne_ok hf h

/-- A field with braces, the start of a directive and a block comment in its string. -/
def bracesField : StringField :=
  ⟨"a".toList, "\x7d #x; /* REFLECT( */ \x7b".toList, by decide, by decide, by simp⟩

/-- A field with slashes in its string, which start a line comment. -/
def slashesField : StringField :=
  ⟨"b".toList, "//".toList, by decide, by decide, by simp⟩

theorem extractSource_header_braces :
    (∀ f ∈ [bracesField, bracesField], f.Contained) ∧
    extractSource (header [bracesField, bracesField]) =
      .ok ⟨[⟨"S".toList, [], ["a".toList, "a".toList]⟩], []⟩ := by
  have hcontained : bracesField.Contained :=
    ⟨"\x7d #x;  \x7b".toList, by decide +kernel, by decide +kernel⟩
  have hfs : ∀ f ∈ [bracesField, bracesField], f.Contained := by simpa using hcontained
  exact ⟨hfs, extractSource_header.1 _ hfs⟩

/-- The slashes take the closing quote with them, and the string the end of the struct. -/
theorem extractSource_header_slashes :
    extractSource (header [slashesField]) = .error (.unterminatedScope 23) ∧
    extractSource (header [slashesField]) ≠ .ok ⟨[⟨"S".toList, [], ["b".toList]⟩], []⟩ := by
  have herror : extractSource (header [slashesField]) = .error (.unterminatedScope 23) := by
    decide +kernel
  refine ⟨herror, ?_⟩
  rw [herror]
  simp

end StringField

end HeaderReflection
