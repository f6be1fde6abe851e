/-
  HeaderReflection.Proofs.Header.RoundTrip

  Extraction reads back what was printed: however the symbols of a header are
  laid out, its marked structs and enums are found with their names, their
  qualifiers, their fields and their cases.
-/
import HeaderReflection.Extraction
import HeaderReflection.Proofs.Header.Bodies

namespace HeaderReflection

variable {α : Type} {source text : Text} {s : TokenStream} {all : List Symbol} {i m : Nat}
variable {scopes : ScopeTree} {items : Items} {around : List Text}

/-! ## Collecting at markers -/

/-- A marker that leads to a head is the first one from the start of the head on. -/
theorem goes_of_leadsTo {kind : DeclKind} {a : α} {n : Nat} {name : Text}
    {read : Nat → Except ParseError (α × Nat)} (h : DeclHead.LeadsTo s kind m i n name)
    (hread : read m = .ok (a, i + n)) :
    Goes (fun i => Cursor.collect kind.marker (resumeInBody read) ⟨s, i⟩) i (i + n + 1) [a] := by
  have hlt := TokenStream.lt_size_of_isIdent h.isMarker
  have hskip := (skips_collect s kind.marker (resumeInBody read)).eq h.le (by omega) h.first
  have hresume : resumeInBody read m = .ok (a, i + n + 1) := by
    rw [resumeInBody, hread]
    rfl
  have := h.lt
  exact (goes_collect h.isMarker hresume (by omega)).after hskip

/-! ## Structs -/

/-- The struct that a marker leads to is read with its qualifier and its fields. -/
theorem readStruct_eq (hs : Reads s all) (htokens : tokenize source = .ok s)
    (hinside : ScopeTree.HeadsStayInside s) {head : StructHead} {body rest : Items}
    (hat : StandsAt all i (Items.struct head body rest).symbols)
    (hin : PrintedIn s i (.struct head body rest) around)
    (h : DeclHead.LeadsTo s .struct m i head.symbols.length head.name.text) :
    readStruct s (ScopeTree.build s) m =
      .ok (⟨head.name.text, Text.joinWith "::".toList around, body.fields⟩,
        i + head.symbols.length) := by
  obtain ⟨start, j, hstart, ⟨hij, hj⟩, hread⟩ := h.head
  have hopen := hat.right
  have hclose := hs.closer_eq htokens hopen body.balanced
  have hfields := collectFields_eq hs hopen hin.struct_body
  have hsize : j < s.size := by
    have := hat.left.length_le
    rw [hs.size_eq]
    omega
  have hqualifier : (ScopeTree.build s).qualifierAt (s.offset j) =
      Text.joinWith "::".toList around := by
    rw [qualifierAt_offset htokens hinside hsize, hin.struct_head hij hj]
  simp only [readStruct, hstart, hread, bodyClose, hclose, hqualifier, bind, Except.bind, hfields]
  rfl

theorem gives_structs (hs : Reads s all) (htokens : tokenize source = .ok s)
    (hinside : ScopeTree.HeadsStayInside s) :
    Gives (fun i => Cursor.collect DeclKind.struct.marker
        (resumeInBody (readStruct s (ScopeTree.build s))) ⟨s, i⟩)
      s all .reflectStruct s.size Items.structDecls (fun _ _ _ => []) (fun _ => []) := by
  have hreserved : Keyword.reflectStruct ∈ Keyword.reserved := by simp [Keyword.reserved]
  have hskips : Skips _ s Keyword.reflectStruct.text s.size := skips_collect s
    DeclKind.struct.marker (resumeInBody (readStruct s (ScopeTree.build s)))
  refine ⟨hreserved, by simp, hskips, ?_, ?_, ?_⟩
  · intro i type n us hat hbound
    exact hskips.goes_field hs hreserved (by simp) hat hbound
  · intro i around head body rest hfresh hat hin hbound
    by_cases hmarked : head.marking = .unmarked
    · rw [Items.structDecls, if_pos hmarked]
      exact hskips.goes_struct hs hreserved (fun hne => absurd hmarked hne) (by simp) hat hbound
    · rw [Items.structDecls, if_neg hmarked]
      obtain ⟨m, hleads⟩ := DeclHead.exists_leadsTo_struct hs head hmarked hfresh hat
      exact goes_of_leadsTo hleads (readStruct_eq hs htokens hinside hat hin hleads)
  · intro i around head cases rest _ hat _ hbound
    exact hskips.goes_enum hs hreserved (by simp) (by simp) hat hbound

/-! ## Enums -/

/-- The enum that a marker leads to is read with its qualifier and its cases. -/
theorem readEnum_eq (hs : Reads s all) (htokens : tokenize source = .ok s)
    (hinside : ScopeTree.HeadsStayInside s) {head : EnumHead} {cases : List Name} {rest : Items}
    (hat : StandsAt all i (Items.enum head cases rest).symbols)
    (hin : PrintedIn s i (.enum head cases rest) around)
    (h : DeclHead.LeadsTo s .enum m i head.symbols.length head.name.text) :
    readEnum s (ScopeTree.build s) m =
      .ok (⟨head.name.text, Text.joinWith "::".toList around, cases.map (·.text)⟩,
        i + head.symbols.length) := by
  obtain ⟨start, j, hstart, -, hread⟩ := h.head
  have hopen := hat.right
  have hclose := hs.closer_eq htokens hopen (braceless_caseSymbols cases).balanced
  have hcases := collectCases_eq hs hopen
  have hqualifier : (ScopeTree.build s).qualifierAt (s.offset m) =
      Text.joinWith "::".toList around := by
    rw [qualifierAt_offset htokens hinside (TokenStream.lt_size_of_isIdent h.isMarker),
      hin.enum_head h.le h.lt]
  simp only [readEnum, hstart, hread, bodyClose, hclose, hqualifier, hcases, bind, Except.bind]
  rfl

theorem gives_enums (hs : Reads s all) (htokens : tokenize source = .ok s)
    (hinside : ScopeTree.HeadsStayInside s) :
    Gives (fun i => Cursor.collect DeclKind.enum.marker
        (resumeInBody (readEnum s (ScopeTree.build s))) ⟨s, i⟩)
      s all .reflectEnum s.size (fun _ _ _ => []) Items.enumDecls (fun _ => []) := by
  have hreserved : Keyword.reflectEnum ∈ Keyword.reserved := by simp [Keyword.reserved]
  have hskips : Skips _ s Keyword.reflectEnum.text s.size := skips_collect s
    DeclKind.enum.marker (resumeInBody (readEnum s (ScopeTree.build s)))
  refine ⟨hreserved, by simp, hskips, ?_, ?_, ?_⟩
  · intro i type n us hat hbound
    exact hskips.goes_field hs hreserved (by simp) hat hbound
  · intro i around head body rest _ hat _ hbound
    exact hskips.goes_struct hs hreserved (by simp) (by simp) hat hbound
  · intro i around head cases rest hfresh hat hin hbound
    by_cases hmarked : head.marking = .unmarked
    · rw [Items.enumDecls, if_pos hmarked]
      exact hskips.goes_enum hs hreserved (fun hne => absurd hmarked hne) (by simp) hat hbound
    · rw [Items.enumDecls, if_neg hmarked]
      obtain ⟨m, hleads⟩ := DeclHead.exists_leadsTo_enum hs head hmarked hfresh hat
      exact goes_of_leadsTo hleads (readEnum_eq hs htokens hinside hat hin hleads)

/-! ## The whole header -/

/-- A collection that gives what the items declare gives it for the whole header. -/
theorem collect_eq {name : Text} {read : Nat → Except ParseError (α × Nat)} {w : Keyword}
    {onStruct : List Text → StructHead → Items → List α}
    {onEnum : List Text → EnumHead → List Name → List α} {onField : Name → List α}
    (h : Gives (fun i => Cursor.collect name read ⟨s, i⟩) s items.symbols w s.size onStruct onEnum
      onField)
    (hs : Reads s items.symbols) (htokens : tokenize source = .ok s) :
    s.cursor.collect name read = .ok (items.visit onStruct onEnum onField []) := by
  have hrun : Cursor.collect name read ⟨s, 0⟩ = do
      let later ← Cursor.collect name read ⟨s, 0 + items.symbols.length⟩
      return items.visit onStruct onEnum onField [] ++ later :=
    h.goes hs (Or.inl rfl) (StandsAt.all_zero _) (printedIn_zero hs htokens)
      (by rw [hs.size_eq]; omega)
  have hend : Cursor.collect name read ⟨s, 0 + items.symbols.length⟩ = .ok [] := by
    refine Cursor.collect_of_none (TokenStream.findIdent_eq_none.2 ?_)
    rw [hs.size_eq]
    omega
  show Cursor.collect name read ⟨s, 0⟩ = _
  rw [hrun, hend]
  show Except.ok (_ ++ []) = _
  rw [List.append_nil]

/-- Every layout of a printed header is extracted, and gives the structs and enums that are marked in
it, in the order of the text. -/
theorem extractSource_of_spells (items : Items) (h : Spells layout items.symbols text) :
    extractSource text = .ok ⟨items.structs, items.enums⟩ := by
  -- The normal form spells the same symbols. As these are balanced, it has a stream that reads as them.
  obtain ⟨source, hnormalize, hspells⟩ := h.normalize
  have hbalanced : Balanced ((Token.scan source).map (·.kind)) := by
    have htokens : (Token.scan source).map (fun u => (u.kind, u.lexeme)) = _ :=
      Token.map_scanFrom hspells
    have hkinds := congrArg (List.map Prod.fst) htokens
    simp only [List.map_map, Function.comp_def] at hkinds
    rw [hkinds]
    exact items.balanced
  obtain ⟨s, htokens⟩ := exists_tokenize_of_balanced hbalanced
  have hs := reads_of_spells htokens hspells
  have hinside := Items.headsStayInside hs htokens
  have hstructs := collect_eq (gives_structs hs htokens hinside) hs htokens
  have henums := collect_eq (gives_enums hs htokens hinside) hs htokens
  rw [extractSource, hnormalize]
  show (do
    let s ← tokenize source
    extract s (ScopeTree.build s)) = _
  rw [htokens]
  show extract s (ScopeTree.build s) = _
  rw [extract, extractStructs, hstructs, extractEnums, henums]
  rfl

/-- A struct in a namespace with a qualified name and an anonymous one, with an enum between its
fields. -/
def nestedHeader : Items :=
  .noise (.usingNamespace ⟨.ofText "std".toList (by decide), []⟩)
    (.scope (some ⟨.ofText "geo".toList (by decide), [.ofText "shapes".toList (by decide)]⟩)
      (.scope none
        (.struct ⟨.beforeKeyword, false, .ofText "Point".toList (by decide)⟩
          (.field ⟨.ofText "int".toList (by decide), []⟩ (.ofText "x".toList (by decide))
            (.enum (.enumClass .behindKeyword (.ofText "Color".toList (by decide)))
              [.ofText "red".toList (by decide), .ofText "green".toList (by decide)]
              (.field ⟨.ofText "int".toList (by decide), []⟩ (.ofText "y".toList (by decide))
                .nil)))
          .nil)
        .nil)
      .nil)

theorem extractSource_of_spells_nested :
    Spells layout nestedHeader.symbols (printed "\r\n\t".toList nestedHeader.symbols) ∧
    extractSource (printed "\r\n\t".toList nestedHeader.symbols) =
      .ok ⟨[⟨"Point".toList, "geo::shapes".toList, ["x".toList, "y".toList]⟩],
        [⟨"Color".toList, "geo::shapes".toList, ["red".toList, "green".toList]⟩]⟩ := by
  have hspells : Spells layout nestedHeader.symbols
      (printed "\r\n\t".toList nestedHeader.symbols) :=
    spells_printed (by simp) (by simp [layout]) nestedHeader.symbols
  exact ⟨hspells, extractSource_of_spells nestedHeader hspells⟩

end HeaderReflection
