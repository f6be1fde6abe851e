/-
  HeaderReflection.Proofs.DeclaredNames

  The names of all declarations that are extracted. A name is a row of words
  with separators between them that stands behind the keyword and before the
  body. It does not end with the marker, but the search for its start may reach
  the marker: it goes back as far as words and separators go, and for a struct
  whose marker stands behind the keyword the marker is not out of its range.
-/
import HeaderReflection.Proofs.AttributedHeads
import HeaderReflection.Proofs.MarkerCoverage
import HeaderReflection.Proofs.Offsets
import HeaderReflection.Proofs.Steps

namespace HeaderReflection

variable {source : Text} {s : TokenStream} {kind : DeclKind} {i j k m o start : Nat}

/-! ## Words and separators -/

namespace TokenStream

theorem hasShape_of_isSeparator (hs : tokenize source = .ok s) (h : s.isSeparator i) :
    s.HasShape i .colons := by
  obtain ⟨t, ht, hkind⟩ := (Option.any_eq_true ..).1 h
  rw [beq_iff_eq] at hkind
  have hmem : t ∈ Token.scan source := List.mem_of_getElem? (token?_of_tokenize hs ▸ ht)
  rw [HasShape, ht, Option.map_some, Token.shape, hkind, Token.lexeme_of_separator hmem hkind]
  rfl

end TokenStream

/-! ## The keyword of a marker -/

namespace DeclKind

/-- Does a keyword of the kind start at token `k`? -/
def isKeyword (s : TokenStream) : DeclKind → Nat → Bool
  | .struct => DeclHead.isStructKeyword s
  | .enum => DeclHead.isEnumKeyword s

/-- How many words a keyword has. -/
def keywordLength : DeclKind → Nat
  | .struct => 1
  | .enum => 2

end DeclKind

/-- The keyword at index `k` is that of the marker at index `m`. It stands right before the marker, or
else it is the first one behind the marker in the rest of the head. -/
structure KeywordOf (s : TokenStream) (kind : DeclKind) (m k : Nat) : Prop where
  is_keyword : kind.isKeyword s k
  place : k + kind.keywordLength = m ∨
    m < k ∧ (∀ j, j + kind.keywordLength = m → kind.isKeyword s j = false) ∧
      ∀ j, m < j → j < k → DeclHead.endsHead s j = false ∧ kind.isKeyword s j = false

/-- The search for a name starts behind the keyword. The marker of a struct does not stop it, but that
of an enum does. -/
theorem DeclHead.exists_keywordOf (h : afterKeyword s kind m = .ok start) :
    ∃ k, KeywordOf s kind m k ∧
      ∀ j, start ≤ j ↔ k + kind.keywordLength ≤ j ∧ (kind = .enum → j ≠ m) := by
  -- The keyword stands right before the marker, or is the first one behind it.
  cases kind with
  | struct =>
      simp only [afterKeyword] at h
      split at h
      · next hbefore =>
        obtain rfl := Except.ok.inj h
        simp only [Bool.and_eq_true, decide_eq_true_eq] at hbefore
        have hplace : m - 1 + DeclKind.struct.keywordLength = m := Nat.sub_add_cancel hbefore.1
        exact ⟨m - 1, ⟨hbefore.2, .inl hplace⟩, fun j => by rw [hplace]; simp⟩
      · next hbefore =>
        split at h
        · next k hk =>
          obtain rfl := Except.ok.inj h
          obtain ⟨hlt, -, hkeyword, hall⟩ := searchHead_eq_some.1 hk
          refine ⟨k, ⟨hkeyword, .inr ⟨hlt.1, fun j hj => ?_, hall⟩⟩, fun j => ?_⟩
          · obtain rfl : m = j + 1 := hj.symm
            simpa [DeclKind.isKeyword] using hbefore
          · simp [DeclKind.keywordLength]
        · simp at h
  | enum =>
      simp only [afterKeyword] at h
      split at h
      · next hbefore =>
        obtain rfl := Except.ok.inj h
        simp only [Bool.and_eq_true, decide_eq_true_eq] at hbefore
        have hplace : m - 2 + DeclKind.enum.keywordLength = m := Nat.sub_add_cancel hbefore.1
        refine ⟨m - 2, ⟨hbefore.2, .inl hplace⟩, fun j => ?_⟩
        rw [hplace]
        simp only [forall_const]
        omega
      · next hbefore =>
        split at h
        · next k hk =>
          obtain rfl := Except.ok.inj h
          obtain ⟨hlt, -, hkeyword, hall⟩ := searchHead_eq_some.1 hk
          refine ⟨k, ⟨hkeyword, .inr ⟨hlt.1, fun j hj => ?_, hall⟩⟩, fun j => ?_⟩
          · obtain rfl : m = j + 2 := hj.symm
            simpa [DeclKind.isKeyword] using hbefore
          · simp only [DeclKind.keywordLength, forall_const]
            omega
        · simp at h

/-! ## The parts of a name -/

namespace DeclHead

/-- What the search for the start of a name goes back over are words with a separator behind each. -/
theorem exists_outer (hs : tokenize source = .ok s) (start : Nat) (hword : s.isWord i) :
    ∃ outer, s.ShapesAt (nameStartFrom s start i) (NameParts.outerShapes outer) ∧
      nameStartFrom s start i + 2 * outer.length = i := by
  induction i using Nat.strongRecOn with
  | ind i ih =>
      have hstay : ∃ outer, s.ShapesAt i (NameParts.outerShapes outer) ∧ i + 2 * outer.length = i :=
        ⟨[], TokenStream.ShapesAt.nil, rfl⟩
      match i with
      | 0 => exact hstay
      | 1 => exact hstay
      | i + 2 =>
          rw [nameStartFrom]
          split
          · next hback =>
            -- The two tokens it goes back over are the next part and its separator.
            simp only [Bool.and_eq_true] at hback
            obtain ⟨⟨-, hseparator⟩, hpart⟩ := hback
            obtain ⟨outer, hat, hlen⟩ := ih i (by omega) hpart
            refine ⟨outer ++ [s.text i], ?_, by rw [List.length_append, List.length_singleton]; omega⟩
            rw [NameParts.outerShapes_append]
            refine hat.append ?_
            rw [NameParts.length_outerShapes, hlen]
            exact .cons (TokenStream.hasShape_of_isWord hpart)
              (.cons (TokenStream.hasShape_of_isSeparator hs hseparator) .nil)
          · exact hstay

end DeclHead

/-! ## The place of a name -/

/-- Where the name of a declaration stands, by the index of the keyword, that of the name's first part
and the parts. -/
structure NamePlace where
  keyword : Nat
  first : Nat
  parts : NameParts

namespace NamePlace

/-- The index behind the name. -/
def stop (p : NamePlace) : Nat :=
  p.first + p.parts.shapes.length

/-- A marker behind the keyword is joined to the end of the name by separators. If the marker that is
read is that of an enum, it is another one. -/
def JoinsMarker (s : TokenStream) (kind : DeclKind) (m : Nat) (p : NamePlace) : Prop :=
  ∃ j inner, (p.keyword + kind.keywordLength ≤ j ∧ (kind = .enum → j ≠ m)) ∧
    s.ShapesAt j (NameParts.shapes ⟨kind.marker :: inner, p.parts.last⟩) ∧
    j + (NameParts.shapes ⟨kind.marker :: inner, p.parts.last⟩).length = p.stop

/-- The name stands between the keyword of its marker and the body, does not end with the marker, and
has the marker as a part only if one is joined to it. -/
structure Stands (s : TokenStream) (kind : DeclKind) (m o : Nat) (p : NamePlace) : Prop where
  keyword : KeywordOf s kind m p.keyword
  shapes : s.ShapesAt p.first p.parts.shapes
  behind_keyword : p.keyword + kind.keywordLength ≤ p.first
  before_body : p.stop ≤ o
  last_ne : p.parts.last ≠ kind.marker
  marker_mem : kind.marker ∈ p.parts.outer ↔ p.JoinsMarker s kind m

end NamePlace

namespace DeclHead

variable {outer : List Text} {last : Text} {first stop : Nat}

/-- A part of a name is joined to its end by the parts behind it. -/
theorem exists_joined {w : Text} (hat : s.ShapesAt first (NameParts.shapes ⟨outer, last⟩))
    (hw : w ∈ outer) :
    ∃ j inner, first ≤ j ∧ s.ShapesAt j (NameParts.shapes ⟨w :: inner, last⟩) ∧
      j + (NameParts.shapes ⟨w :: inner, last⟩).length =
        first + (NameParts.shapes ⟨outer, last⟩).length := by
  obtain ⟨front, inner, rfl⟩ := List.append_of_mem hw
  have hsplit : NameParts.shapes ⟨front ++ w :: inner, last⟩ =
      NameParts.outerShapes front ++ NameParts.shapes ⟨w :: inner, last⟩ := by
    simp only [NameParts.shapes, NameParts.outerShapes_append, List.append_assoc]
  rw [hsplit] at hat ⊢
  exact ⟨_, inner, Nat.le_add_right _ _, hat.right, by rw [List.length_append, Nat.add_assoc]⟩

/-- What is joined to the last part of a name is a part of it, unless it stands before the start of
the search. -/
theorem mem_outer_of_joined {w : Text} {inner : List Text}
    (hat : s.ShapesAt (nameStartFrom s start stop) (NameParts.shapes ⟨outer, last⟩))
    (hlen : nameStartFrom s start stop + 2 * outer.length = stop)
    (hjoined : s.ShapesAt j (NameParts.shapes ⟨w :: inner, last⟩))
    (hend : j + 2 * (w :: inner).length = stop) (hle : start ≤ j) : w ∈ outer := by
  -- The search goes back over all that is joined, so the name starts there or before.
  have hback : nameStartFrom s start stop ≤ j := by
    rw [← hend, AttributedHead.nameStartFrom_outerShapes hjoined.left hle]
    exact nameStartFrom_le
  have hlt : j < nameStartFrom s start stop + (NameParts.outerShapes outer).length := by
    rw [NameParts.length_outerShapes, hlen, ← hend, List.length_cons]
    omega
  obtain ⟨p, hp, hshape⟩ := hat.left.exists_mem hback hlt
  have hw : s.HasShape j (.word w) := hjoined.head
  obtain rfl : p = .word w := Option.some.inj (hshape.symm.trans hw)
  exact NameParts.word_mem_outerShapes.1 hp

/-- The name of a head ends behind the start of the search and before the body, with a word that is
not the marker. -/
theorem exists_last_of_read {head : DeclHead} (h : read s kind m start = .ok head) :
    ∃ last, (start ≤ last ∧ last < head.body) ∧ s.isWord last ∧
      s.isIdent last kind.marker = false ∧ head.nameStart = nameStartFrom s start last ∧
      head.name =
        ((List.range' head.nameStart (last + 1 - head.nameStart)).map s.text).flatten := by
  obtain ⟨stop, -, -, hstop, hne, hword, hfirst, hname⟩ := read_eq_ok.1 h
  have hclause := s.getD_findPunct_bounds (c := ':') (read_body h).1
  have hbounds : start ≤ stop ∧ stop ≤ (s.findPunct start head.body ':').getD head.body :=
    hstop ▸ nameEnd_bounds hclause.1
  have hlt : start < stop := Nat.lt_of_le_of_ne hbounds.1 (Ne.symm hne)
  have hmarker : s.isIdent (stop - 1) kind.marker = false := by
    rw [← hstop] at hlt ⊢
    exact isIdent_marker_before_nameEnd hlt
  refine ⟨stop - 1, by omega, hword, hmarker, hfirst, ?_⟩
  rw [hname, Nat.sub_add_cancel (by omega)]

/-- The name of a head that is read has its place. -/
theorem exists_namePlace {head : DeclHead} (hs : tokenize source = .ok s)
    (hstart : afterKeyword s kind m = .ok start) (hread : read s kind m start = .ok head) :
    ∃ p : NamePlace, p.Stands s kind m head.body ∧ head.name = p.parts.text := by
  obtain ⟨k, hkeyword, hrange⟩ := exists_keywordOf hstart
  obtain ⟨last, hbounds, hword, hmarker, hfirst, hname⟩ := exists_last_of_read hread
  have hlast := TokenStream.hasShape_of_isWord hword
  -- In front of the last word stand the outer ones, each with a separator behind it.
  obtain ⟨outer, houter, hlen⟩ := exists_outer hs start hword
  rw [← hfirst] at houter hlen
  have hshapes : s.ShapesAt head.nameStart (NameParts.shapes ⟨outer, s.text last⟩) := by
    refine houter.append (.cons ?_ .nil)
    rw [NameParts.length_outerShapes, hlen]
    exact hlast
  have hlength : ∀ outer : List Text,
      (NameParts.shapes ⟨outer, s.text last⟩).length = 2 * outer.length + 1 :=
    fun outer => NameParts.length_shapes ⟨outer, s.text last⟩
  have hle : start ≤ head.nameStart := hfirst ▸ le_nameStartFrom hbounds.1
  have hstop : head.nameStart + (NameParts.shapes ⟨outer, s.text last⟩).length = last + 1 := by
    rw [hlength]
    omega
  refine ⟨⟨k, head.nameStart, ⟨outer, s.text last⟩⟩,
    ⟨hkeyword, hshapes, ((hrange _).1 hle).1, ?_, ?_, ?_, ?_⟩, ?_⟩
  · show _ + _ ≤ head.body
    rw [hstop]
    omega
  · show s.text last ≠ kind.marker
    intro heq
    rw [hlast.isIdent_eq, heq] at hmarker
    simp [Shape.word] at hmarker
  · intro hmem
    obtain ⟨j, inner, hj, hjoined, hend⟩ := exists_joined hshapes hmem
    exact ⟨j, inner, (hrange j).1 (by omega), hjoined, hend⟩
  · rintro ⟨j, inner, hj, hjoined, hend⟩
    have hend : j + (NameParts.shapes ⟨kind.marker :: inner, s.text last⟩).length = last + 1 :=
      hend.trans hstop
    rw [hlength] at hend
    rw [hfirst] at hshapes hlen
    exact mem_outer_of_joined hshapes hlen hjoined (by omega) ((hrange j).2 hj)
  · have hcount : last + 1 - head.nameStart =
        (NameParts.shapes ⟨outer, s.text last⟩).length := by
      omega
    rw [hname, hcount, hshapes.map_text, NameParts.flatten_shapes]

end DeclHead

/-! ## All names of an extraction -/

/-- Every declaration is read at a marker of its kind, and its name is the text of parts that stand in
their place. -/
def NamesInPlace {α : Type} (s : TokenStream) (kind : DeclKind)
    (read : Nat → Except ParseError (α × Nat)) (name : α → Text) (ds : List α) : Prop :=
  ∀ d ∈ ds, ∃ m o, s.isIdent m kind.marker ∧ read m = .ok (d, o) ∧ DeclHead.OpensBody s m o ∧
    ∃ p : NamePlace, p.Stands s kind m o ∧ name d = p.parts.text

theorem namesInPlace_of_collect {α : Type} {read : Nat → Except ParseError (α × Nat)}
    {name : α → Text} {ds : List α}
    (hopens : ∀ m d o, s.isIdent m kind.marker → read m = .ok (d, o) → DeclHead.OpensBody s m o)
    (hname : ∀ m d o, read m = .ok (d, o) →
      ∃ p : NamePlace, p.Stands s kind m o ∧ name d = p.parts.text)
    (h : s.cursor.collect kind.marker (resumeInBody read) = .ok ds) :
    NamesInPlace s kind read name ds := by
  intro d hd
  obtain ⟨found, hfound⟩ := coversMarkers_of_collect hopens h
  rw [← hfound.decls] at hd
  obtain ⟨f, hf, rfl⟩ := List.mem_map.1 hd
  obtain ⟨hm, hbody, hread⟩ := hfound.is_decl f hf
  exact ⟨f.marker, f.body, hm, hread, hbody, hname _ _ _ hread⟩

section Reading

variable {scopes : ScopeTree} (hs : tokenize source = .ok s)

include hs

theorem exists_namePlace_of_readStruct {d : StructDecl}
    (h : readStruct s scopes m = .ok (d, o)) :
    ∃ p : NamePlace, p.Stands s .struct m o ∧ d.name = p.parts.text := by
  simp only [readStruct, bind_eq_ok] at h
  obtain ⟨start, hstart, head, hread, close, -, fields, -, h⟩ := h
  cases h
  exact DeclHead.exists_namePlace hs hstart hread

theorem exists_namePlace_of_readEnum {d : EnumDecl} (h : readEnum s scopes m = .ok (d, o)) :
    ∃ p : NamePlace, p.Stands s .enum m o ∧ d.name = p.parts.text := by
  simp only [readEnum, bind_eq_ok] at h
  obtain ⟨start, hstart, head, hread, close, -, h⟩ := h
  cases h
  exact DeclHead.exists_namePlace hs hstart hread

end Reading

/-- All names that are extracted from a raw text are words joined by separators that stand between the
keyword and the body. None ends with its marker, and one has its marker as a part just if a marker
behind the keyword is joined to it; for a struct that may be the marker of the declaration itself. -/
theorem extractSource_names {raw : Text} {e : Extraction} (h : extractSource raw = .ok e) :
    ∃ source s, normalize raw = .ok source ∧ tokenize source = .ok s ∧
      NamesInPlace s .struct (readStruct s (ScopeTree.build s)) StructDecl.name e.structs ∧
      NamesInPlace s .enum (readEnum s (ScopeTree.build s)) EnumDecl.name e.enums := by
  obtain ⟨source, s, hsource, hs, hextract⟩ := extractSource_eq_ok.1 h
  obtain ⟨hstructs, henums⟩ := extract_eq_ok.1 hextract
  refine ⟨source, s, hsource, hs, ?_, ?_⟩
  · apply namesInPlace_of_collect _ _ hstructs
    · exact fun m d o hm hd => opensBody_of_readStruct hm hd
    · exact fun m d o hd => exists_namePlace_of_readStruct hs hd
  · apply namesInPlace_of_collect _ _ henums
    · exact fun m d o hm hd => opensBody_of_readEnum hm hd
    · exact fun m d o hd => exists_namePlace_of_readEnum hs hd

/-- A struct and an enum with qualified names, each with its marker behind the keyword. -/
def qualifiedHeader : Text :=
  ("namespace N\n\x7b\nstruct REFLECT_STRUCT B::A final : C\n\x7b\n" ++
    "  enum class REFLECT_ENUM ::E \x7bX\x7d;\n\x7d;\n\x7d\n").toList

theorem extractSource_names_qualified :
    extractSource qualifiedHeader = .ok ⟨[⟨"B::A".toList, "N".toList, []⟩],
      [⟨"E".toList, "N".toList, ["X".toList]⟩]⟩ ∧
    ∃ source s, normalize qualifiedHeader = .ok source ∧ tokenize source = .ok s ∧
      NamesInPlace s .struct (readStruct s (ScopeTree.build s)) StructDecl.name
        [⟨"B::A".toList, "N".toList, []⟩] ∧
      NamesInPlace s .enum (readEnum s (ScopeTree.build s)) EnumDecl.name
        [⟨"E".toList, "N".toList, ["X".toList]⟩] := by
  have hrun : extractSource qualifiedHeader = .ok ⟨[⟨"B::A".toList, "N".toList, []⟩],
      [⟨"E".toList, "N".toList, ["X".toList]⟩]⟩ := by
    decide +kernel
  exact ⟨hrun, extractSource_names hrun⟩

/-- The marker of a struct is joined to a name that begins with a separator, and that of an enum is
not. -/
theorem extractSource_name_joins_marker :
    extractSource "struct REFLECT_STRUCT ::A\x7b\x7d;".toList =
        .ok ⟨[⟨"REFLECT_STRUCT::A".toList, [], []⟩], []⟩ ∧
      extractSource "enum class REFLECT_ENUM ::A\x7b\x7d;".toList =
        .ok ⟨[], [⟨"A".toList, [], []⟩]⟩ ∧
      "REFLECT_STRUCT::A".toList = NameParts.text ⟨[DeclKind.struct.marker], "A".toList⟩ := by
  decide +kernel

end HeaderReflection
