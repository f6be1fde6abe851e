/-
  HeaderReflection.Proofs.EnumDefinitions

  A text that is one marked enum. Its tokens are those of a head and of a list
  of enumerators, with any number of spaces between them. It can be cut into
  tokens, and what is extracted is one enum with one case for each enumerator.
-/
import HeaderReflection.Proofs.Balance
import HeaderReflection.Proofs.Enumerators
import HeaderReflection.Proofs.NameBehindAttributes
import HeaderReflection.Proofs.Steps

namespace HeaderReflection

/-! ## Spaces between tokens -/

/-- The characters of the text that are in no token are spaces. -/
def Token.SpacesOnly (source : Text) : Prop :=
  ∀ n c, source.HasAt n [c] → (∀ t ∈ Token.scan source, n < t.start ∨ t.stop ≤ n) → c = ' '

/-- A text whose only blanks are spaces has nothing but spaces between its tokens. -/
theorem Token.SpacesOnly.of_all {source : Text}
    (h : source.all fun c => !Text.isBlank c || c == ' ') : SpacesOnly source := by
  intro n c hat houtside
  have hlaid : LaidOut 0 (scan source) source := LaidOut.scanFrom 0 source
  have hblank : Text.isBlank c := hlaid.isBlank_of_hasAt hat (by simpa using houtside)
  obtain ⟨before, after, rfl, -⟩ := hat
  have hc := List.all_eq_true.1 h c (by simp)
  simpa [hblank] using hc

/-- The gaps of a text without other blanks are spaces. -/
theorem Token.SpacesOnly.gap {source : Text} {s : TokenStream} (hs : tokenize source = .ok s)
    (hspaces : SpacesOnly source) (i : Nat) : ∀ c ∈ s.gap i, c = ' ' := by
  intro c hc
  obtain ⟨n, hat, houtside⟩ := TokenStream.outside_of_mem_gap hs hc
  rw [TokenStream.source_of_tokenize hs] at hat
  rw [TokenStream.toList_of_tokenize hs] at houtside
  exact hspaces n c hat houtside

/-! ## Braces in pairs -/

/-- Tokens with their brackets in pairs have their braces in pairs. -/
theorem Bracketed.balanced {inside : Bool} {ps : List Shape} (h : Bracketed inside ps) :
    Balanced (ps.map (·.1)) := by
  induction h with
  | nil => exact .nil
  | @token inside p ps plain _ _ ih =>
      simp only [Shape.isBracket, brackets, List.any_cons, List.any_nil, Bool.or_false,
        Bool.or_eq_false_iff, beq_eq_false_iff_ne] at plain
      exact .other plain.2.2.1 plain.2.2.2 ih
  | @group inside b ps qs mem _ _ ih ih' =>
      rw [List.map_cons, List.map_append, List.map_cons]
      simp only [brackets, List.mem_cons, List.not_mem_nil, or_false] at mem
      -- Of the brackets only the curly ones are braces.
      rcases mem with rfl | rfl | rfl
      · exact .other (by decide) (by decide) (ih.append (.other (by decide) (by decide) ih'))
      · exact .other (by decide) (by decide) (ih.append (.other (by decide) (by decide) ih'))
      · exact .braces ih ih'

theorem Enumerator.balanced (e : Enumerator) : Balanced (e.shapes.map (·.1)) := by
  rw [shapes, List.map_cons, initializerShapes]
  refine .other (by simp [Shape.word]) (by simp [Shape.word]) ?_
  cases hinit : e.initializer with
  | none => exact .nil
  | some ps => exact .other (by decide) (by decide) (e.nested ps hinit).balanced

theorem EnumeratorList.balanced {es : List Enumerator} {ps : List Shape}
    (h : EnumeratorList es ps) : Balanced (ps.map (·.1)) := by
  induction h with
  | nil => exact .nil
  | last e => exact e.balanced
  | cons e _ ih =>
      rw [List.map_append, List.map_cons]
      exact e.balanced.append (.other (by decide) (by decide) ih)

/-- Up to its brace a head holds no brace. -/
theorem AttributedHead.balanced (h : AttributedHead) :
    Balanced ((h.front ++ h.clauseShapes).map (·.1)) := by
  apply Balanced.of_forall
  intro k hk
  obtain ⟨p, hp, rfl⟩ := List.mem_map.1 hk
  have hstays : p.endsHead = false := by
    rcases List.mem_append.1 hp with hp | hp
    · exact endsHead_of_mem_front hp
    · exact endsHead_of_mem_clauseShapes hp
  simp only [Shape.endsHead, Bool.or_eq_false_iff, beq_eq_false_iff_ne] at hstays
  exact ⟨hstays.1.1, hstays.2⟩

/-! ## Marked enums -/

/-- The kinds of tokens of given shapes. -/
theorem map_kind_eq {ts : List Token} {ps : List Shape} (h : ts.map Token.shape = ps) :
    ts.map (·.kind) = ps.map (·.1) := by
  rw [← h, List.map_map]
  rfl

/-- A marked enum with its body and possibly a semicolon behind it. -/
structure EnumDefinition where
  head : AttributedHead
  enumerators : List Enumerator
  /-- The tokens between the braces. -/
  body : List Shape
  semicolon : Bool
  kind_eq : head.kind = .enum
  lists : EnumeratorList enumerators body
  unmarked : Shape.word DeclKind.enum.marker ∉ body

namespace EnumDefinition

variable {d : EnumDefinition} {source : Text} {s : TokenStream} {i : Nat}

/-- The closing brace and what follows it. -/
def tail (d : EnumDefinition) : List Shape :=
  .punct '}' :: if d.semicolon then [.punct ';'] else []

/-- The tokens of an enum definition. -/
def shapes (d : EnumDefinition) : List Shape :=
  d.head.shapes ++ (d.body ++ d.tail)

/-- No marker stands behind the head. -/
theorem unmarked_rest (d : EnumDefinition) :
    Shape.word DeclKind.enum.marker ∉ d.body ++ d.tail := by
  rw [List.mem_append, not_or]
  refine ⟨d.unmarked, ?_⟩
  rw [tail]
  split <;> decide

theorem shapes_eq (d : EnumDefinition) :
    d.shapes = (d.head.front ++ d.head.clauseShapes) ++ .punct '{' :: (d.body ++ d.tail) := by
  simp only [shapes, AttributedHead.shapes, List.append_assoc, List.cons_append, List.nil_append]

theorem balanced (d : EnumDefinition) : Balanced (d.shapes.map (·.1)) := by
  rw [shapes_eq, List.map_append]
  refine d.head.balanced.append ?_
  rw [List.map_cons, List.map_append, tail, List.map_cons]
  refine .braces d.lists.balanced ?_
  split
  · exact .other (by decide) (by decide) .nil
  · exact .nil

/-! ## Its stream -/

/-- A text with the tokens of an enum has a token stream. -/
theorem exists_tokenize (hshapes : (Token.scan source).map Token.shape = d.shapes) :
    ∃ s, tokenize source = .ok s := by
  apply exists_tokenize_of_balanced
  rw [map_kind_eq hshapes]
  exact d.balanced

variable (hs : tokenize source = .ok s) (hshapes : (Token.scan source).map Token.shape = d.shapes)

include hs hshapes

theorem shapesAt : s.ShapesAt 0 d.shapes := by
  intro k hk
  rw [TokenStream.HasShape, Nat.zero_add, TokenStream.token?_of_tokenize hs, ← List.getElem?_map,
    hshapes, List.getElem?_eq_getElem hk]

theorem size_eq : s.size = d.shapes.length := by
  rw [← hshapes, List.length_map, ← TokenStream.toList_of_tokenize hs, TokenStream.size,
    Array.length_toList]

/-- The body ends at the brace behind its tokens. -/
theorem closer_bodyAt :
    s.closer (d.head.bodyAt 0) = some (d.head.bodyAt 0 + 1 + d.body.length) := by
  -- The tokens are those of the head, a brace, those of the body, a brace and what follows it.
  rw [shapes_eq, tail] at hshapes
  obtain ⟨front, ts, hscan, hfront, hts⟩ := List.map_eq_append_iff.1 hshapes
  obtain ⟨t, ts, rfl, ht, hts⟩ := List.map_eq_cons_iff.1 hts
  obtain ⟨body, us, rfl, hbody, hus⟩ := List.map_eq_append_iff.1 hts
  obtain ⟨u, us, rfl, hu, -⟩ := List.map_eq_cons_iff.1 hus
  have hbalanced : Balanced (body.map (·.kind)) := by
    rw [map_kind_eq hbody]
    exact d.lists.balanced
  have hlen : front.length = d.head.bodyAt 0 := by
    rw [← List.length_map (f := Token.shape), hfront, List.length_append, AttributedHead.bodyAt,
      AttributedHead.clauseAt, Nat.zero_add]
  have hlen' : body.length = d.body.length := by rw [← hbody, List.length_map]
  have hcloser := closer_of_balanced hs ((TokenStream.toList_of_tokenize hs).trans hscan)
    (congrArg Prod.fst ht) hbalanced (congrArg Prod.fst hu)
  rw [hlen, hlen'] at hcloser
  exact hcloser

/-- Behind the brace that opens the body no marker is left. -/
theorem isIdent_behind_body (hi : d.head.bodyAt 0 < i) :
    s.isIdent i DeclKind.enum.marker = false := by
  by_cases hsize : i < s.size
  · have hplace := d.head.length_shapes 0
    have hlen : d.shapes.length = d.head.shapes.length + (d.body ++ d.tail).length :=
      List.length_append
    rw [size_eq hs hshapes] at hsize
    exact (shapesAt hs hshapes).right.isIdent_eq_false d.unmarked_rest (by omega) (by omega)
  · exact Bool.eq_false_iff.2 fun hmarker => hsize (TokenStream.lt_size_of_isIdent hmarker)

/-- No marker stands before that of the head. -/
theorem isIdent_before_marker (hi : i < d.head.markerAt 0) :
    s.isIdent i DeclKind.enum.marker = false := by
  have hkeyword := AttributedHead.shapesAt_keyword (shapesAt hs hshapes).left
  have hwords : ∀ ws ∈ DeclKind.enum.keywords,
      Shape.word DeclKind.enum.marker ∉ ws.map Shape.word := by
    decide
  rw [AttributedHead.markerAt] at hi
  rw [AttributedHead.keywordAt] at hkeyword
  split at hi
  · omega
  · next hfirst =>
    -- The marker stands behind the keyword, so what is before it is one of the keyword's words.
    rw [if_neg hfirst] at hkeyword
    exact hkeyword.isIdent_eq_false (hwords _ (d.kind_eq ▸ d.head.keyword_mem)) (Nat.zero_le i)
      (by rwa [List.length_map])

/-! ## What is extracted -/

/-- A head that is read has the body of the definition. -/
theorem body_of_ofMarker {head : DeclHead}
    (h : DeclHead.ofMarker s .enum (d.head.markerAt 0) = .ok head) :
    head.body = d.head.bodyAt 0 := by
  have hat : s.ShapesAt 0 d.head.shapes := (shapesAt hs hshapes).left
  have hmarker := AttributedHead.isIdent_marker hat
  rw [d.kind_eq] at hmarker
  obtain ⟨start, hstart, hread⟩ := DeclHead.ofMarker_eq_ok.1 h
  exact (DeclHead.opensBody hmarker hstart hread).unique (AttributedHead.opensBody hat)

/-- With its head an enum is read, and its cases are the names of its enumerators. -/
theorem readEnum_eq (hspaces : Token.SpacesOnly source) (scopes : ScopeTree) :
    readEnum s scopes (d.head.markerAt 0) = do
      let head ← DeclHead.ofMarker s .enum (d.head.markerAt 0)
      return (⟨head.name, scopes.qualifierAt (s.offset (d.head.markerAt 0)),
        d.enumerators.map (·.name)⟩, d.head.bodyAt 0) := by
  have hclose : bodyClose s (d.head.bodyAt 0) = .ok (d.head.bodyAt 0 + 1 + d.body.length) := by
    rw [bodyClose, closer_bodyAt hs hshapes]
  have hbody : s.ShapesAt (d.head.bodyAt 0 + 1) d.body := by
    rw [← d.head.length_shapes 0]
    exact (shapesAt hs hshapes).right.left
  have hcases : collectCases s (d.head.bodyAt 0) (d.head.bodyAt 0 + 1 + d.body.length) =
      d.enumerators.map (·.name) :=
    collectCases_of_list hs (hspaces.gap hs) d.lists hbody
  have hread : readEnum s scopes (d.head.markerAt 0) = do
      let head ← DeclHead.ofMarker s .enum (d.head.markerAt 0)
      let close ← bodyClose s head.body
      return (⟨head.name, scopes.qualifierAt (s.offset (d.head.markerAt 0)),
        collectCases s head.body close⟩, head.body) := by
    rw [readEnum, DeclHead.ofMarker, bind_assoc]
  rw [hread]
  cases hhead : DeclHead.ofMarker s .enum (d.head.markerAt 0) with
  | error e => rfl
  | ok head =>
      show (bodyClose s head.body >>= fun close => _) = _
      rw [body_of_ofMarker hs hshapes hhead, hclose]
      show Except.ok (_, _) = _
      rw [hcases]
      rfl

/-- The one marker that is read is that of the head. -/
theorem extractEnums_eq (hspaces : Token.SpacesOnly source) (scopes : ScopeTree) :
    extractEnums s scopes = do
      let head ← DeclHead.ofMarker s .enum (d.head.markerAt 0)
      return [⟨head.name, scopes.qualifierAt (s.offset (d.head.markerAt 0)),
        d.enumerators.map (·.name)⟩] := by
  have hmarker := AttributedHead.isIdent_marker (shapesAt hs hshapes).left
  rw [d.kind_eq] at hmarker
  have hlt := TokenStream.lt_size_of_isIdent hmarker
  have hmb := d.head.markerAt_lt 0
  have hskip := (skips_collect s DeclKind.enum.marker (resumeInBody (readEnum s scopes))).eq
    (Nat.zero_le (d.head.markerAt 0)) (Nat.le_of_lt hlt)
    fun k _ hk => isIdent_before_marker hs hshapes hk
  have hend : Cursor.collect DeclKind.enum.marker (resumeInBody (readEnum s scopes))
      ⟨s, d.head.bodyAt 0 + 1⟩ = .ok [] :=
    Cursor.collect_of_none (TokenStream.findIdent_size_eq_none.2 fun k hk =>
      isIdent_behind_body hs hshapes hk)
  have hmax : max (d.head.markerAt 0 + 1) (d.head.bodyAt 0 + 1) = d.head.bodyAt 0 + 1 := by omega
  rw [extractEnums, TokenStream.cursor, hskip,
    Cursor.collect_of_some (TokenStream.findIdent_self hmarker hlt), resumeInBody,
    readEnum_eq hs hshapes hspaces]
  cases DeclHead.ofMarker s .enum (d.head.markerAt 0) with
  | error e => rfl
  | ok head =>
      show (Cursor.collect _ _ ⟨s, max _ (d.head.bodyAt 0 + 1)⟩ >>= fun rest => _) = _
      rw [hmax, hend]
      rfl

end EnumDefinition

/-- The text of a marked enum has a token stream, and what is extracted of it is one enum with the
names of its enumerators, one case for each of them. Its name is that of the head, unless that does not
stand out. -/
theorem extractEnums_of_definition {source : Text} (d : EnumDefinition)
    (hshapes : (Token.scan source).map Token.shape = d.shapes)
    (hspaces : Token.SpacesOnly source) :
    ∃ s, tokenize source = .ok s ∧ ∀ scopes : ScopeTree,
      (d.head.NameStandsOut → extractEnums s scopes =
        .ok [⟨d.head.name.text, scopes.qualifierAt (s.offset (d.head.markerAt 0)),
          d.enumerators.map (·.name)⟩]) ∧
      ∀ es, extractEnums s scopes = .ok es →
        ∃ name, es = [⟨name, scopes.qualifierAt (s.offset (d.head.markerAt 0)),
          d.enumerators.map (·.name)⟩] := by
  obtain ⟨s, hs⟩ := EnumDefinition.exists_tokenize hshapes
  refine ⟨s, hs, fun scopes => ?_⟩
  rw [EnumDefinition.extractEnums_eq hs hshapes hspaces]
  constructor
  · intro hout
    have halone : d.head.KeywordStandsAlone 0 s := fun hkind => by simp [d.kind_eq] at hkind
    have hhead := (AttributedHead.ofMarker_eq_ok_iff (EnumDefinition.shapesAt hs hshapes).left
      halone).2 hout
    rw [d.kind_eq] at hhead
    rw [hhead]
    rfl
  · intro es hes
    obtain ⟨head, -, hes⟩ := bind_eq_ok.1 hes
    exact ⟨head.name, (Except.ok.inj hes).symm⟩

/-- An enum with an underlying type whose initializers hold brackets of all kinds, with commas and
equals signs in them, and whose last comma has nothing behind it. -/
def modeEnum : EnumDefinition where
  head :=
    { kind := .enum
      markerFirst := false
      keyword := ["enum".toList, "class".toList]
      attributes := []
      name := ⟨[], "Mode".toList⟩
      isFinal := false
      clause := some [.word "uint8_t".toList]
      keyword_mem := by decide
      attributePart := .nil
      clause_stays := by decide }
  enumerators :=
    [.plain "Off".toList,
      .given "On".toList
        (.group ('(', ')') (by decide)
          (.of_forall [.word "1".toList, .punct '<', .punct '<', .word "2".toList] (by decide)) .nil),
      .given "Auto".toList
        (.token (p := .word "f".toList) rfl (.inr (by decide)) <|
          .group ('(', ')') (by decide)
            (.group ('\x7b', '\x7d') (by decide)
                (.of_forall [.word "1".toList, .punct ',', .word "2".toList] (by decide)) <|
              .token (p := .punct ',') rfl (.inl rfl) <|
              .group ('[', ']') (by decide) .nil <|
              .group ('(', ')') (by decide) .nil <|
              .group ('\x7b', '\x7d') (by decide)
                (.of_forall [.word "return".toList, .word "a".toList, .punct '=', .word "3".toList,
                  .punct ';'] (by decide)) .nil) .nil),
      .plain "Last".toList]
  body := _
  semicolon := true
  kind_eq := rfl
  lists := .cons _ (.cons _ (.cons _ (.cons _ .nil)))
  unmarked := by decide

/-- The enum as it is written, with blanks between some of its tokens and none between others. -/
def modeText : Text :=
  ("enum class REFLECT_ENUM Mode : uint8_t \x7bOff, On = (1<<2),  " ++
    "Auto = f(\x7b1, 2\x7d, []()\x7breturn a = 3;\x7d), Last , \x7d;").toList

theorem extractEnums_of_definition_lambda :
    ∃ s, tokenize modeText = .ok s ∧
      (Token.scan modeText).map Token.shape = modeEnum.shapes ∧
      Token.SpacesOnly modeText ∧ modeEnum.head.NameStandsOut ∧
      ∀ scopes : ScopeTree, extractEnums s scopes =
        .ok [⟨"Mode".toList, scopes.qualifierAt (s.offset 2),
          ["Off".toList, "On".toList, "Auto".toList, "Last".toList]⟩] := by
  have hshapes : (Token.scan modeText).map Token.shape = modeEnum.shapes := by decide +kernel
  have hspaces : Token.SpacesOnly modeText := Token.SpacesOnly.of_all (by decide +kernel)
  have hout : modeEnum.head.NameStandsOut := ⟨by decide, by decide, by decide⟩
  obtain ⟨s, hs, hread⟩ := extractEnums_of_definition modeEnum hshapes hspaces
  exact ⟨s, hs, hshapes, hspaces, hout, fun scopes => (hread scopes).1 hout⟩

/-- An enum whose name is `final`. -/
def finalEnum : EnumDefinition where
  head := { modeEnum.head with name := ⟨[], "final".toList⟩ }
  enumerators := [.plain "A".toList]
  body := _
  semicolon := true
  kind_eq := rfl
  lists := .last _
  unmarked := by decide

/-- The name is skipped, and nothing is left before it. -/
theorem extractEnums_final :
    ∃ s, tokenize "enum class REFLECT_ENUM final : uint8_t\x7bA\x7d;".toList = .ok s ∧
      (Token.scan "enum class REFLECT_ENUM final : uint8_t\x7bA\x7d;".toList).map Token.shape =
        finalEnum.shapes ∧
      Token.SpacesOnly "enum class REFLECT_ENUM final : uint8_t\x7bA\x7d;".toList ∧
      extractEnums s (ScopeTree.build s) = .error (.missingName .enum 11) := by
  have hrun : (tokenize "enum class REFLECT_ENUM final : uint8_t\x7bA\x7d;".toList >>= fun s =>
      Except.ok (extractEnums s (ScopeTree.build s))) = .ok (.error (.missingName .enum 11)) := by
    decide +kernel
  obtain ⟨s, hs, hread⟩ := bind_eq_ok.1 hrun
  exact ⟨s, hs, by decide +kernel, Token.SpacesOnly.of_all (by decide +kernel),
    Except.ok.inj hread⟩

end HeaderReflection
