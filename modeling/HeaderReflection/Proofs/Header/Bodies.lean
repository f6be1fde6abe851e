/-
  HeaderReflection.Proofs.Header.Bodies

  The bodies of printed declarations: the fields of a struct, with those of the
  bodies in it, and the cases of an enum.
-/
import HeaderReflection.Proofs.Body
import HeaderReflection.Proofs.Header.Walk

namespace HeaderReflection

variable {s : TokenStream} {all us : List Symbol} {i j m close : Nat} {n : Name} {text : Text}

/-! ## Names in the text -/

theorem Name.exists_gap (n : Name) (h : Spells [' '] [n.symbol] text) :
    ∃ gap, text = n.text ++ gap ∧ ∀ c ∈ gap, c ∈ [' '] := by
  have hq := QualifiedName.exists_gap ⟨n, []⟩ h
  simpa [QualifiedName.text, Text.joinWith] using hq

theorem Name.isBlank_of_mem (n : Name) {c : Char} (hc : c ∈ n.text) :
    Text.isBlank c = false ∧ c ≠ ' ' := by
  have hsymbol : c ∈ n.symbol.text := hc
  obtain ⟨hblank, hstranger⟩ := Symbol.isBlank_of_mem_text hsymbol
  refine ⟨hblank, ?_⟩
  rintro rfl
  exact hstranger (by simp [strangers])

/-- Between two tokens a name is read from the text by trimming. -/
theorem Name.trim_eq (n : Name) (h : Spells [' '] [n.symbol] text) : text.trim = n.text := by
  obtain ⟨gap, rfl, hgap⟩ := n.exists_gap h
  exact Text.trim_append (fun c hc => (n.isBlank_of_mem hc).1) (isBlank_of_mem_gap hgap)

theorem Name.filter_eq (n : Name) (h : Spells [' '] [n.symbol] text) :
    text.filter (· != ' ') = n.text := by
  obtain ⟨gap, rfl, hgap⟩ := n.exists_gap h
  rw [List.filter_append, List.filter_eq_self.2, List.filter_eq_nil_iff.2, List.append_nil]
  · simpa using hgap
  · intro c hc
    simpa using (n.isBlank_of_mem hc).2

theorem Name.text_ne_nil (n : Name) : n.text ≠ [] :=
  Symbol.text_ne_nil n.symbol

/-! ## Fields -/

/-- A printed field is collected. -/
theorem goes_field (hs : Reads s all)
    (hat : StandsAt all i (Keyword.reflect.symbol :: .mark .openParen :: n.symbol ::
      .mark .closeParen :: us)) (hclose : i + 3 < close) :
    Goes (collectFieldsFrom s close) i (i + 4) [n.text] := by
  have hmarker : s.isIdent i fieldMarker := by
    rw [hs.isIdent_eq hat.head]
    rfl
  have hopen : s.isPunct (i + 1) '(' := by
    rw [hs.isPunct_eq hat.tail.head]
    rfl
  have hinner : s.isPunct (i + 2) ')' = false := by
    rw [hs.isPunct_eq hat.tail.tail.head]
    rfl
  have hend : s.isPunct (i + 3) ')' := by
    rw [hs.isPunct_eq hat.tail.tail.tail.head]
    rfl
  have htext : (s.textBetween (i + 2) (i + 3)).trim = n.text :=
    n.trim_eq (hs.spells_of_standsAt
      (show StandsAt all (i + 2) ([n.symbol] ++ _) from hat.tail.tail) (by simp))
  have hgoes := goes_collectFieldsFrom hmarker hopen hinner hend hclose
  rwa [htext] at hgoes

/-- What the fields give does not depend on the namespaces around them. -/
theorem Items.visit_fields_eq {α : Type} (g : Name → List α) (items : Items)
    (around around' : List Text) :
    items.visit (fun _ _ _ => []) (fun _ _ _ => []) g around =
      items.visit (fun _ _ _ => []) (fun _ _ _ => []) g around' := by
  induction items generalizing around around' with
  | nil => rfl
  | scope name body rest ihbody ihrest =>
      rw [visit, visit, ihbody _ (around' ++ (name.map (·.text)).toList), ihrest _ around']
  | noise n rest ih => exact ih around around'
  | field type n rest ih => rw [visit, visit, ih _ around']
  | struct head body rest ihbody ihrest => rw [visit, visit, ihbody _ around', ihrest _ around']
  | enum head cases rest ih => rw [visit, visit, ih _ around']

/-- The fields are collected in the order in which the header is visited. -/
theorem gives_fields (hs : Reads s all) (close : Nat) :
    Gives (collectFieldsFrom s close) s all .reflect close (fun _ _ _ => []) (fun _ _ _ => [])
      (fun n => [n.text]) := by
  have hreserved : Keyword.reflect ∈ Keyword.reserved := by simp [Keyword.reserved]
  have hskips : Skips _ s Keyword.reflect.text close := skips_collectFieldsFrom s close
  refine ⟨hreserved, by simp, hskips, ?_, ?_, ?_⟩
  · intro i type n us hat hbound
    rw [Items.fieldSymbols, List.append_assoc] at hat
    rw [Items.fieldSymbols, List.length_append] at hbound ⊢
    simp only [List.length_cons, List.length_nil] at hbound ⊢
    have htype := hskips.eq_of_lacks hs hat.left (type.lacks hreserved) (by omega)
    have hfield : Goes (collectFieldsFrom s close) (i + type.symbols.length)
        (i + type.symbols.length + 4) [n.text] := goes_field hs hat.right (by omega)
    have hsemi := hat.right.tail.tail.tail.tail
    exact (hfield.before (hskips.eq_of_mark hs hsemi.head (by omega))).after htype
  · intro i around head body rest _ hat _ hbound
    exact hskips.goes_struct hs hreserved (by simp) (by simp) hat hbound
  · intro i around head cases rest _ hat _ hbound
    exact hskips.goes_enum hs hreserved (by simp) (by simp) hat hbound

/-- The fields of a printed body are collected. -/
theorem collectFields_eq {items : Items} {around : List Text} (hs : Reads s all)
    (hat : StandsAt all i (.mark .openBrace :: (items.symbols ++ us)))
    (hin : PrintedIn s (i + 1) items around) :
    collectFields s i (i + 1 + items.symbols.length) = .ok items.fields := by
  have hgoes := (gives_fields hs (i + 1 + items.symbols.length)).goes hs (Fresh.of_standsAt hat)
    hat.tail.left hin (Nat.le_refl _)
  have hend : collectFieldsFrom s (i + 1 + items.symbols.length)
      (i + 1 + items.symbols.length) = .ok [] := by
    refine collectFieldsFrom_of_none (TokenStream.findIdent_eq_none.2 ?_)
    omega
  rw [collectFields, hgoes, hend, Items.fields, Items.visit_fields_eq _ items around []]
  show Except.ok (_ ++ []) = _
  rw [List.append_nil]

/-! ## Cases -/

/-- A case that is a name alone is read as that name. -/
theorem finish_of_name (hs : Reads s all) {t : Symbol}
    (hat : StandsAt all i (n.symbol :: t :: us)) :
    (⟨0, i, none⟩ : CaseProgress).finish s (i + 1) = [n.text] := by
  have htext : (s.textBetween i (i + 1)).filter (· != ' ') = n.text :=
    n.filter_eq (hs.spells_of_standsAt (show StandsAt all i ([n.symbol] ++ t :: us) from hat)
      (by simp))
  rw [CaseProgress.finish]
  simp [htext, n.text_ne_nil]

theorem step_of_name (hs : Reads s all) (hi : all[i]? = some n.symbol) (p : CaseProgress) :
    p.step s i = p := by
  obtain ⟨u, hu, hkind, -⟩ := hs.token?_eq hi
  rw [CaseProgress.step, hu, Option.map_some, hkind]
  rfl

theorem step_of_comma (hs : Reads s all) (hi : all[i]? = some (.mark .comma)) (p : CaseProgress) :
    p.step s i = p := by
  obtain ⟨u, hu, hkind, -⟩ := hs.token?_eq hi
  rw [CaseProgress.step, hu, Option.map_some, hkind]
  rfl

/-- The cases of a printed body are collected, one piece after the other. -/
theorem collectCasesFrom_eq (hs : Reads s all) {cases : List Name}
    (hat : StandsAt all i (caseSymbols cases ++ .mark .closeBrace :: us)) :
    collectCasesFrom s (i + (caseSymbols cases).length) ⟨0, i, none⟩
      (List.range' i (caseSymbols cases).length) = cases.map (·.text) := by
  -- A name goes with the comma behind it, where the next piece starts at depth zero again.
  induction cases generalizing i with
  | nil =>
      have htext : s.textBetween i i = [] :=
        Spells.eq_nil (hs.spells_of_standsAt (show StandsAt all i ([] ++ _) from hat) (by simp))
      show (⟨0, i, none⟩ : CaseProgress).finish s i = []
      rw [CaseProgress.finish]
      simp [htext]
  | cons n rest ih =>
      cases rest with
      | nil =>
          have hcomma : s.isPunct i ',' = false := by
            rw [hs.isPunct_eq hat.head]
            rfl
          show collectCasesFrom s (i + 1) ⟨0, i, none⟩ [i] = [n.text]
          rw [collectCasesFrom, step_of_name hs hat.head]
          simp only [hcomma, Bool.and_false, Bool.false_eq_true, if_false, collectCasesFrom]
          exact finish_of_name hs hat
      | cons m rest =>
          have hnext : StandsAt all (i + 2) (caseSymbols (m :: rest) ++ .mark .closeBrace :: us) :=
            hat.tail.tail
          have hname : s.isPunct i ',' = false := by
            rw [hs.isPunct_eq hat.head]
            rfl
          have hcomma : s.isPunct (i + 1) ',' := by
            rw [hs.isPunct_eq hat.tail.head]
            rfl
          have hlen : i + (caseSymbols (n :: m :: rest)).length =
              i + 2 + (caseSymbols (m :: rest)).length := by
            simp only [caseSymbols, List.length_cons]
            omega
          rw [hlen, caseSymbols, List.length_cons, List.length_cons, List.range'_succ,
            List.range'_succ, collectCasesFrom, step_of_name hs hat.head]
          simp only [hname, Bool.and_false, Bool.false_eq_true, if_false]
          rw [collectCasesFrom, step_of_comma hs hat.tail.head]
          simp only [hcomma, Bool.and_true, beq_self_eq_true, if_true]
          rw [finish_of_name hs hat, ih hnext]
          rfl

/-- The cases of a printed body are collected. -/
theorem collectCases_eq (hs : Reads s all) {cases : List Name}
    (hat : StandsAt all i (.mark .openBrace :: (caseSymbols cases ++ .mark .closeBrace :: us))) :
    collectCases s i (i + 1 + (caseSymbols cases).length) = cases.map (·.text) := by
  rw [collectCases, Nat.add_sub_cancel_left]
  exact collectCasesFrom_eq hs hat.tail

end HeaderReflection
