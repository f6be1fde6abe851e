/-
  HeaderReflection.Proofs.Header.Walk

  Readings that go through a printed header from token to token. What such a
  reading gives for the items is what it gives for each struct, enum and field,
  in the order of the text.
-/
import HeaderReflection.Proofs.Header.Heads
import HeaderReflection.Proofs.Header.Scopes
import HeaderReflection.Proofs.Steps

namespace HeaderReflection

variable {α : Type} {s : TokenStream} {all ts us : List Symbol} {i j k bound : Nat} {name : Text}
variable {f : Nat → Except ParseError (List α)} {out out' : List α}

/-! ## Going past symbols -/

theorem Skips.eq_of_lacks {w : Keyword} (h : Skips f s w.text bound) (hs : Reads s all)
    (hat : StandsAt all i ts) (hts : Lacks w ts) (hbound : i + ts.length ≤ bound) :
    f i = f (i + ts.length) := by
  refine h.eq (by omega) hbound fun k hik hk => ?_
  obtain ⟨t, hmem, ht⟩ := hat.exists_mem hik hk
  rw [hs.isIdent_eq ht]
  exact hts t hmem

theorem Skips.eq_of_mark {m : Mark} (h : Skips f s name bound) (hs : Reads s all)
    (hi : all[i]? = some (.mark m)) (hbound : i < bound) : f i = f (i + 1) := by
  refine h i hbound ?_
  rw [hs.isIdent_eq hi]
  rfl

/-- A head without the word is passed, up to the body. -/
theorem Skips.goes_head {w : Keyword} {m : Mark} (h : Skips f s w.text bound) (hs : Reads s all)
    (hat : StandsAt all i (ts ++ .mark m :: us)) (hts : Lacks w ts)
    (hbound : i + ts.length < bound) : Goes f i (i + ts.length + 1) [] := by
  have hhead := h.eq_of_lacks hs hat.left hts (by omega)
  exact goes_of_eq (hhead.trans (h.eq_of_mark hs hat.right.head hbound))

section Passed

variable {w : Keyword}

theorem Skips.goes_field {type : QualifiedName} {n : Name} (h : Skips f s w.text bound)
    (hs : Reads s all) (hw : w ∈ Keyword.reserved) (hne : w ≠ .reflect)
    (hat : StandsAt all i (Items.fieldSymbols type n ++ us))
    (hbound : i + (Items.fieldSymbols type n).length ≤ bound) :
    Goes f i (i + (Items.fieldSymbols type n).length) [] :=
  goes_of_eq (h.eq_of_lacks hs hat.left (Items.lacks_fieldSymbols type n hw hne) hbound)

/-- A struct is passed, up to its body, unless it is marked with the word. -/
theorem Skips.goes_struct {head : StructHead} {body rest : Items} (h : Skips f s w.text bound)
    (hs : Reads s all) (hw : w ∈ Keyword.reserved)
    (hmarker : head.marking ≠ .unmarked → w ≠ .reflectStruct)
    (hkeyword : w ≠ .struct ∧ w ≠ .classWord)
    (hat : StandsAt all i (Items.struct head body rest).symbols)
    (hbound : i + (Items.struct head body rest).symbols.length ≤ bound) :
    Goes f i (i + head.symbols.length + 1) [] := by
  rw [Items.length_symbols_struct] at hbound
  exact h.goes_head hs hat (head.lacks hw hmarker hkeyword) (by omega)

/-- An enum is passed, up to its body, unless it is marked with the word. -/
theorem Skips.goes_enum {head : EnumHead} {cases : List Name} {rest : Items}
    (h : Skips f s w.text bound) (hs : Reads s all) (hw : w ∈ Keyword.reserved)
    (hmarker : head.marking ≠ .unmarked → w ≠ .reflectEnum)
    (hkeyword : w ≠ .enum ∧ w ≠ .classWord)
    (hat : StandsAt all i (Items.enum head cases rest).symbols)
    (hbound : i + (Items.enum head cases rest).symbols.length ≤ bound) :
    Goes f i (i + head.symbols.length + 1) [] := by
  rw [Items.length_symbols_enum] at hbound
  exact h.goes_head hs hat (head.lacks hw hmarker hkeyword) (by omega)

end Passed

/-! ## A reading of items -/

section Visit

variable {onStruct : List Text → StructHead → Items → List α}
variable {onEnum : List Text → EnumHead → List Name → List α} {onField : Name → List α}
variable {w : Keyword} {items : Items} {around : List Text}

/-- What a reading that looks for the word `w` gives for a struct, an enum and a field. -/
structure Gives (f : Nat → Except ParseError (List α)) (s : TokenStream) (all : List Symbol)
    (w : Keyword) (bound : Nat) (onStruct : List Text → StructHead → Items → List α)
    (onEnum : List Text → EnumHead → List Name → List α) (onField : Name → List α) : Prop where
  reserved : w ∈ Keyword.reserved
  ne_namespaceWord : w ≠ .namespaceWord
  skips : Skips f s w.text bound
  field : ∀ i type n us, StandsAt all i (Items.fieldSymbols type n ++ us) →
    i + (Items.fieldSymbols type n).length ≤ bound →
    Goes f i (i + (Items.fieldSymbols type n).length) (onField n)
  /-- The reading goes on in the body. -/
  struct : ∀ i around head body rest, Fresh all i →
    StandsAt all i (Items.struct head body rest).symbols →
    PrintedIn s i (.struct head body rest) around →
    i + (Items.struct head body rest).symbols.length ≤ bound →
    Goes f i (i + head.symbols.length + 1) (onStruct around head body)
  enum : ∀ i around head cases rest, Fresh all i →
    StandsAt all i (Items.enum head cases rest).symbols →
    PrintedIn s i (.enum head cases rest) around →
    i + (Items.enum head cases rest).symbols.length ≤ bound →
    Goes f i (i + head.symbols.length + 1) (onEnum around head cases)

theorem Items.lacks_scopeHead (name : Option QualifiedName) (hw : w ∈ Keyword.reserved)
    (hne : w ≠ .namespaceWord) : Lacks w (scopeHead name) :=
  List.forall_mem_cons.2 ⟨Keyword.isNamed_of_ne hne, lacks_scopeName name hw⟩

/-- A statement that declares nothing ends with a semicolon. -/
theorem Noise.fresh_of_standsAt (n : Noise) (hat : StandsAt all i n.symbols) :
    Fresh all (i + n.symbols.length) := by
  obtain ⟨front, hsymbols⟩ : ∃ front, n.symbols = front ++ [.mark .semicolon] := by
    cases n with
    | usingNamespace q => exact ⟨_ :: _ :: q.symbols, rfl⟩
    | namespaceAlias n q => exact ⟨_ :: _ :: _ :: q.symbols, rfl⟩
  rw [hsymbols] at hat ⊢
  rw [List.length_append, List.length_singleton, ← Nat.add_assoc]
  exact Fresh.of_standsAt hat.right

theorem Items.fresh_of_fieldSymbols {type : QualifiedName} {n : Name}
    (hat : StandsAt all i (fieldSymbols type n)) :
    Fresh all (i + (fieldSymbols type n).length) := by
  have hsymbols : fieldSymbols type n = (type.symbols ++ [Keyword.reflect.symbol, .mark .openParen,
      n.symbol, .mark .closeParen]) ++ [.mark .semicolon] := by
    simp [fieldSymbols]
  rw [hsymbols] at hat ⊢
  rw [List.length_append, List.length_singleton, ← Nat.add_assoc]
  exact Fresh.of_standsAt hat.right

/-- The reading of items gives what it gives for each of them. -/
theorem Gives.goes (h : Gives f s all w bound onStruct onEnum onField) (hs : Reads s all)
    (hfresh : Fresh all i) (hat : StandsAt all i items.symbols) (hin : PrintedIn s i items around)
    (hbound : i + items.symbols.length ≤ bound) :
    Goes f i (i + items.symbols.length) (items.visit onStruct onEnum onField around) := by
  -- By induction on the items, the body of an item before the rest. The start and the names around
  -- change, and no word stands before any of the starts.
  induction items generalizing i around with
  | nil => exact goes_of_eq rfl
  | scope name body rest ihbody ihrest =>
      have hopen := hat.right
      have hinner := hopen.tail
      have hclose := hinner.right
      simp only [Items.length_symbols_scope, ← Nat.add_assoc] at hbound ⊢
      have hhead := h.skips.eq_of_lacks hs hat.left
        (Items.lacks_scopeHead name h.reserved h.ne_namespaceWord) (by omega)
      have hbrace := h.skips.eq_of_mark hs hopen.head (by omega)
      have hbody := ihbody (Fresh.of_standsAt hopen) hinner.left (hin.scope_body hs hat) (by omega)
      have hend := h.skips.eq_of_mark hs hclose.head (by omega)
      have hrest := ihrest (Fresh.of_standsAt hclose) hclose.tail hin.scope_rest (by omega)
      exact ((hbody.before hend).trans hrest).after (hhead.trans hbrace)
  | noise n rest ih =>
      simp only [Items.length_symbols_noise, ← Nat.add_assoc] at hbound ⊢
      have hlacks := n.lacks h.reserved h.ne_namespaceWord
      have hnoise := h.skips.eq_of_lacks hs hat.left hlacks (by omega)
      have hrest := ih (n.fresh_of_standsAt hat.left) hat.right hin.noise (by omega)
      exact hrest.after hnoise
  | field type n rest ih =>
      simp only [Items.length_symbols_field, ← Nat.add_assoc] at hbound ⊢
      have hfield := h.field i type n rest.symbols hat (by omega)
      have hrest := ih (Items.fresh_of_fieldSymbols hat.left) hat.right hin.field (by omega)
      exact hfield.trans hrest
  | struct head body rest ihbody ihrest =>
      have hopen := hat.right
      have hinner := hopen.tail
      have hclose := hinner.right
      have hstruct := h.struct i around head body rest hfresh hat hin hbound
      simp only [Items.length_symbols_struct, ← Nat.add_assoc] at hbound ⊢
      have hbody := ihbody (Fresh.of_standsAt hopen) hinner.left hin.struct_body (by omega)
      have hend := h.skips.eq_of_mark hs hclose.head (by omega)
      have hsemi := h.skips.eq_of_mark hs hclose.tail.head (by omega)
      have hrest := ihrest (Fresh.of_standsAt hclose.tail) hclose.tail.tail hin.struct_rest
        (by omega)
      exact hstruct.trans ((hbody.before (hend.trans hsemi)).trans hrest)
  | enum head cases rest ih =>
      have hopen := hat.right
      have hinner := hopen.tail
      have hclose := hinner.right
      have henum := h.enum i around head cases rest hfresh hat hin hbound
      simp only [Items.length_symbols_enum, ← Nat.add_assoc] at hbound ⊢
      have hcases := h.skips.eq_of_lacks hs hinner.left (lacks_caseSymbols cases h.reserved)
        (by omega)
      have hend := h.skips.eq_of_mark hs hclose.head (by omega)
      have hsemi := h.skips.eq_of_mark hs hclose.tail.head (by omega)
      have hrest := ih (Fresh.of_standsAt hclose.tail) hclose.tail.tail hin.enum_rest (by omega)
      exact henum.trans (hrest.after (hcases.trans (hend.trans hsemi)))

end Visit

end HeaderReflection
