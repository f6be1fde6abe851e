/-
  HeaderReflection.Proofs.Header.Symbols

  What the symbols of a printed header are: which keywords its parts do not
  hold, that its braces are balanced, and how a qualified name is spelled.
-/
import HeaderReflection.Proofs.Balance
import HeaderReflection.Proofs.Header.Model

namespace HeaderReflection

/-! ## The symbols of the parts -/

section Parts

variable {P : Symbol → Prop} {k marker : Keyword} {keywords : List Keyword}

/-- What holds of two colons and of names holds of all symbols of a qualified name. -/
theorem QualifiedName.forall_mem_symbols (hcolons : P .colons) (hname : ∀ n : Name, P n.symbol)
    (q : QualifiedName) : ∀ t ∈ q.symbols, P t := by
  refine List.forall_mem_cons.2 ⟨hname q.first, fun t ht => ?_⟩
  obtain ⟨n, -, ht⟩ := List.mem_flatMap.1 ht
  simp only [List.mem_cons, List.not_mem_nil, or_false] at ht
  rcases ht with rfl | rfl
  · exact hcolons
  · exact hname n

/-- What holds of names, of the keywords and of the marker, where there is one, holds of all symbols up to
a declaration's name. -/
theorem Marking.forall_mem_symbols (marking : Marking) (hname : ∀ n : Name, P n.symbol)
    (hkeywords : ∀ k ∈ keywords, P k.symbol) (hmarker : marking ≠ .unmarked → P marker.symbol)
    (n : Name) : ∀ t ∈ marking.symbols marker keywords n, P t := by
  intro t ht
  cases marking <;>
    simp only [symbols, List.mem_cons, List.mem_append, List.mem_map, List.not_mem_nil,
      or_false] at ht
  · rcases ht with ⟨k, hk, rfl⟩ | rfl
    · exact hkeywords k hk
    · exact hname n
  · rcases ht with rfl | ⟨k, hk, rfl⟩ | rfl
    · exact hmarker (by simp)
    · exact hkeywords k hk
    · exact hname n
  · rcases ht with ⟨k, hk, rfl⟩ | rfl | rfl
    · exact hkeywords k hk
    · exact hmarker (by simp)
    · exact hname n

/-- What holds of names and of commas holds of all symbols of an enum's body. -/
theorem forall_mem_caseSymbols (hname : ∀ n : Name, P n.symbol) (hcomma : P (.mark .comma))
    (cases : List Name) : ∀ t ∈ caseSymbols cases, P t := by
  induction cases with
  | nil => simp [caseSymbols]
  | cons n rest ih =>
      cases rest with
      | nil => simpa [caseSymbols] using hname n
      | cons => exact List.forall_mem_cons.2 ⟨hname n, List.forall_mem_cons.2 ⟨hcomma, ih⟩⟩

/-- What holds of names, of the two keywords and of the marks in use holds of all symbols of a statement
that declares nothing. -/
theorem Noise.forall_mem_symbols (hcolons : P .colons) (hname : ∀ n : Name, P n.symbol)
    (hkeywords : ∀ k ∈ [Keyword.usingWord, .namespaceWord], P k.symbol)
    (hmarks : ∀ m ∈ [Mark.semicolon, .equals], P (.mark m)) (n : Noise) : ∀ t ∈ n.symbols, P t := by
  cases n with
  | usingNamespace q =>
      have hq := q.forall_mem_symbols hcolons hname
      simpa [symbols, or_imp, forall_and, hkeywords, hmarks] using hq
  | namespaceAlias n q =>
      have hq := q.forall_mem_symbols hcolons hname
      simpa [symbols, or_imp, forall_and, hkeywords, hmarks, hname] using hq

end Parts

/-! ## How many symbols the items have -/

namespace Items

variable {body rest : Items}

theorem length_symbols_scope {name : Option QualifiedName} :
    (scope name body rest).symbols.length =
      (scopeHead name).length + 1 + body.symbols.length + 1 + rest.symbols.length := by
  simp only [symbols, List.length_append, List.length_cons]
  omega

theorem length_symbols_noise {n : Noise} :
    (noise n rest).symbols.length = n.symbols.length + rest.symbols.length :=
  List.length_append

theorem length_symbols_field {type : QualifiedName} {n : Name} :
    (field type n rest).symbols.length = (fieldSymbols type n).length + rest.symbols.length :=
  List.length_append

theorem length_symbols_struct {head : StructHead} :
    (struct head body rest).symbols.length =
      head.symbols.length + 1 + body.symbols.length + 2 + rest.symbols.length := by
  simp only [symbols, List.length_append, List.length_cons]
  omega

theorem length_symbols_enum {head : EnumHead} {cases : List Name} :
    (enum head cases rest).symbols.length =
      head.symbols.length + 1 + (caseSymbols cases).length + 2 + rest.symbols.length := by
  simp only [symbols, List.length_append, List.length_cons]
  omega

end Items

/-! ## Words that the parts do not hold -/

section Lacks

variable {k : Keyword} {ts us : List Symbol}

/-- The keyword is not among the symbols. -/
def Lacks (k : Keyword) (ts : List Symbol) : Prop :=
  ∀ t ∈ ts, t.isNamed k.text = false

/-- No two keywords are spelled in the same way. -/
theorem Keyword.isNamed_symbol (k k' : Keyword) :
    k.symbol.isNamed k'.text = decide (k = k') := by
  cases k <;> cases k' <;> rfl

/-- A name is none of the reserved keywords. -/
theorem Name.isNamed_symbol (n : Name) (hk : k ∈ Keyword.reserved) :
    n.symbol.isNamed k.text = false := by
  simpa [Name.symbol, Symbol.isNamed] using n.unreserved k hk

theorem Keyword.isNamed_of_ne {k' : Keyword} (h : k ≠ k') : k'.symbol.isNamed k.text = false := by
  rw [isNamed_symbol]
  exact decide_eq_false (Ne.symm h)

theorem QualifiedName.lacks (q : QualifiedName) (hk : k ∈ Keyword.reserved) : Lacks k q.symbols :=
  q.forall_mem_symbols (P := fun t => t.isNamed k.text = false) rfl fun n => n.isNamed_symbol hk

theorem lacks_caseSymbols (cases : List Name) (hk : k ∈ Keyword.reserved) :
    Lacks k (caseSymbols cases) :=
  forall_mem_caseSymbols (P := fun t => t.isNamed k.text = false)
    (fun n => n.isNamed_symbol hk) rfl cases

/-- A keyword stands before a declaration's name only as one of its keywords or as its marker. -/
theorem Marking.lacks {marker : Keyword} {keywords : List Keyword} (marking : Marking) (n : Name)
    (hk : k ∈ Keyword.reserved) (hmarker : marking ≠ .unmarked → k ≠ marker)
    (hkeywords : ∀ k' ∈ keywords, k ≠ k') : Lacks k (marking.symbols marker keywords n) := by
  refine marking.forall_mem_symbols (P := fun t => t.isNamed k.text = false)
    (fun n => n.isNamed_symbol hk) ?_ ?_ n
  · intro k' hk'
    exact Keyword.isNamed_of_ne (hkeywords k' hk')
  · intro hmarked
    exact Keyword.isNamed_of_ne (hmarker hmarked)

/-- A struct's head holds no other reserved keyword than its own and, if it is marked, the marker. -/
theorem StructHead.lacks (h : StructHead) (hk : k ∈ Keyword.reserved)
    (hmarker : h.marking ≠ .unmarked → k ≠ .reflectStruct)
    (hkeyword : k ≠ .struct ∧ k ≠ .classWord) : Lacks k h.symbols := by
  refine h.marking.lacks h.name hk hmarker ?_
  cases h.isClass <;> simp [hkeyword]

/-- An enum's head holds no other reserved keyword than its own and, if it is marked, the marker. -/
theorem EnumHead.lacks (h : EnumHead) (hk : k ∈ Keyword.reserved)
    (hmarker : h.marking ≠ .unmarked → k ≠ .reflectEnum) (hkeyword : k ≠ .enum ∧ k ≠ .classWord) :
    Lacks k h.symbols := by
  refine h.marking.lacks h.name hk hmarker ?_
  cases h <;> simp [EnumHead.keywords, hkeyword]

/-- The only reserved keyword of a statement that declares nothing is the one for namespaces. -/
theorem Noise.lacks (n : Noise) (hk : k ∈ Keyword.reserved) (hne : k ≠ .namespaceWord) :
    Lacks k n.symbols := by
  refine n.forall_mem_symbols (P := fun t => t.isNamed k.text = false) rfl
    (fun n => n.isNamed_symbol hk) ?_ fun _ _ => rfl
  have husing : k ≠ .usingWord := by
    rintro rfl
    simp [Keyword.reserved] at hk
  simp [Keyword.isNamed_of_ne, husing, hne]

end Lacks

/-! ## Balance -/

/-- Is the symbol a brace? -/
def Symbol.isBrace : Symbol → Bool
  | .mark .openBrace => true
  | .mark .closeBrace => true
  | _ => false

/-- No brace is among the symbols. -/
def Braceless (ts : List Symbol) : Prop :=
  ∀ t ∈ ts, t.isBrace = false

theorem QualifiedName.braceless (q : QualifiedName) : Braceless q.symbols :=
  q.forall_mem_symbols (P := fun t => t.isBrace = false) rfl fun _ => rfl

/-- Up to its name a declaration has no brace. -/
theorem Marking.braceless {marker : Keyword} {keywords : List Keyword} (marking : Marking)
    (n : Name) : Braceless (marking.symbols marker keywords n) :=
  marking.forall_mem_symbols (P := fun t => t.isBrace = false) (fun _ => rfl) (fun _ _ => rfl)
    (fun _ => rfl) n

theorem braceless_caseSymbols (cases : List Name) : Braceless (caseSymbols cases) :=
  forall_mem_caseSymbols (P := fun t => t.isBrace = false) (fun _ => rfl) rfl cases

theorem Noise.braceless (n : Noise) : Braceless n.symbols :=
  n.forall_mem_symbols (P := fun t => t.isBrace = false) rfl (fun _ => rfl) (fun _ _ => rfl)
    (by decide)

theorem Items.braceless_scopeHead (name : Option QualifiedName) : Braceless (scopeHead name) := by
  refine List.forall_mem_cons.2 ⟨rfl, ?_⟩
  cases name with
  | none => exact List.forall_mem_nil _
  | some q => exact q.braceless

theorem Items.braceless_fieldSymbols (type : QualifiedName) (name : Name) :
    Braceless (fieldSymbols type name) := by
  intro t ht
  rcases List.mem_append.1 ht with ht | ht
  · exact type.braceless t ht
  · simp only [List.mem_cons, List.not_mem_nil, or_false] at ht
    rcases ht with rfl | rfl | rfl | rfl | rfl <;> rfl

section Balanced

variable {ts us : List Symbol}

/-- Only braces are read as braces. -/
theorem Symbol.kind_ne_of_isBrace {t : Symbol} (h : t.isBrace = false) :
    t.kind ≠ .punct '\x7b' ∧ t.kind ≠ .punct '\x7d' := by
  cases t with
  | word => simp [kind]
  | colons => simp [kind]
  | mark m => cases m <;> simp_all [isBrace, kind, Mark.char]

theorem Braceless.balanced (h : Braceless ts) : Balanced (ts.map (·.kind)) := by
  refine Balanced.of_forall fun k hk => ?_
  obtain ⟨t, ht, rfl⟩ := List.mem_map.1 hk
  exact Symbol.kind_ne_of_isBrace (h t ht)

theorem Braceless.balanced_append (h : Braceless ts) (h' : Balanced (us.map (·.kind))) :
    Balanced ((ts ++ us).map (·.kind)) := by
  rw [List.map_append]
  exact h.balanced.append h'

/-- A body in braces with something balanced behind it is balanced. -/
theorem balanced_braces (h : Balanced (ts.map (·.kind))) (h' : Balanced (us.map (·.kind))) :
    Balanced ((Symbol.mark .openBrace :: (ts ++ .mark .closeBrace :: us)).map (·.kind)) := by
  rw [List.map_cons, List.map_append, List.map_cons]
  exact Balanced.braces h h'

theorem balanced_semicolon (h : Balanced (ts.map (·.kind))) :
    Balanced ((Symbol.mark .semicolon :: ts).map (·.kind)) :=
  Balanced.other (by decide) (by decide) h

/-- A printed header is balanced. -/
theorem Items.balanced (items : Items) : Balanced (items.symbols.map (·.kind)) := by
  induction items with
  | nil => exact Balanced.nil
  | scope name body rest ihbody ihrest =>
      exact (braceless_scopeHead name).balanced_append (balanced_braces ihbody ihrest)
  | noise n rest ih => exact n.braceless.balanced_append ih
  | field type name rest ih => exact (braceless_fieldSymbols type name).balanced_append ih
  | struct head body rest ihbody ihrest =>
      exact (head.marking.braceless head.name).balanced_append
        (balanced_braces ihbody (balanced_semicolon ihrest))
  | enum head cases rest ih =>
      exact (head.marking.braceless head.name).balanced_append
        (balanced_braces (braceless_caseSymbols cases).balanced (balanced_semicolon ih))

end Balanced

/-! ## Names between tokens -/

/-- Trimming takes away the blanks behind a text that has none itself. -/
theorem Text.trim_append {w gap : Text} (hw : ∀ c ∈ w, Text.isBlank c = false)
    (hgap : ∀ c ∈ gap, Text.isBlank c) : Text.trim (w ++ gap) = w := by
  have hstart : (w ++ gap).dropWhile Text.isBlank = w ++ gap ∨
      (w = [] ∧ (w ++ gap).dropWhile Text.isBlank = []) := by
    cases w with
    | nil =>
        have hnil : (gap ++ []).dropWhile Text.isBlank = [] := List.dropWhile_append_of_pos hgap
        exact Or.inr ⟨rfl, by simpa using hnil⟩
    | cons c w => exact Or.inl (by simp [hw c List.mem_cons_self])
  rcases hstart with hstart | ⟨rfl, hstart⟩
  · rw [Text.trim, Text.trimEnd, hstart, List.reverse_append, List.dropWhile_append_of_pos]
    · cases hrev : w.reverse with
      | nil => simpa using congrArg List.reverse hrev.symm
      | cons c r =>
          have hc : Text.isBlank c = false := hw c (by rw [← List.mem_reverse, hrev]; simp)
          rw [List.dropWhile_cons_of_neg (by simp [hc]), ← hrev, List.reverse_reverse]
    · intro c hc
      exact hgap c (List.mem_reverse.1 hc)
  · rw [Text.trim, Text.trimEnd, hstart]
    rfl

theorem isBlank_of_mem_gap {gap : Text} (hgap : ∀ c ∈ gap, c ∈ [' ']) :
    ∀ c ∈ gap, Text.isBlank c := by
  intro c hc
  obtain rfl : c = ' ' := by simpa using hgap c hc
  decide

namespace QualifiedName

theorem text_cons (first n : Name) (rest : List Name) :
    text ⟨first, n :: rest⟩ = first.text ++ ("::".toList ++ text ⟨n, rest⟩) := by
  rw [text, List.map_cons, Text.joinWith, List.intercalate_cons_cons, List.append_assoc]
  rfl

/-- A qualified name is reported as its symbols are spelled without gaps. -/
theorem text_eq (q : QualifiedName) : q.text = q.symbols.flatMap (·.text) := by
  obtain ⟨first, rest⟩ := q
  induction rest generalizing first with
  | nil => simp [text, symbols, Text.joinWith, Name.symbol, Symbol.text]
  | cons n rest ih =>
      rw [text_cons, ih]
      rfl

/-- A spelled qualified name is the name with a gap behind it. -/
theorem exists_gap {m : Text} (q : QualifiedName) (h : Spells [' '] q.symbols m) :
    ∃ gap, m = q.text ++ gap ∧ ∀ c ∈ gap, c ∈ [' '] := by
  obtain ⟨first, rest⟩ := q
  induction rest generalizing first m with
  | nil =>
      obtain _ | ⟨hgap, -, h⟩ := h
      cases h
      exact ⟨_, by simp [text, Text.joinWith, Name.symbol, Symbol.text], hgap⟩
  | cons n rest ih =>
      obtain _ | ⟨-, hsep, h⟩ := h
      have hnone := hsep.tight (Or.inr rfl)
      obtain _ | ⟨-, hsep, h⟩ := h
      have hnone' := hsep.tight (Or.inl rfl)
      obtain ⟨gap, rfl, hgap⟩ := ih n h
      refine ⟨gap, ?_, hgap⟩
      rw [hnone, hnone', text_cons]
      simp [Name.symbol, Symbol.text]

end QualifiedName

/-- Between two tokens a qualified name is read from the text by trimming. -/
theorem QualifiedName.trim_eq {m : Text} (q : QualifiedName) (h : Spells [' '] q.symbols m) :
    m.trim = q.text := by
  obtain ⟨gap, rfl, hgap⟩ := q.exists_gap h
  refine Text.trim_append (fun c hc => ?_) (isBlank_of_mem_gap hgap)
  rw [q.text_eq] at hc
  obtain ⟨t, -, ht⟩ := List.mem_flatMap.1 hc
  exact (Symbol.isBlank_of_mem_text ht).1

theorem QualifiedName.text_ne_nil (q : QualifiedName) : q.text ≠ [] := by
  rw [q.text_eq, symbols, List.flatMap_cons]
  exact List.append_ne_nil_of_left_ne_nil (Symbol.text_ne_nil _) _

end HeaderReflection
