/-
  HeaderReflection.Proofs.Header.Scopes

  The namespaces of a printed header. Their braces are found where they were
  printed, and the qualifier of a token joins the names of the namespaces that
  it was printed in.
-/
import HeaderReflection.Proofs.Header.Symbols
import HeaderReflection.Proofs.Qualifier
import HeaderReflection.Proofs.Reading

namespace HeaderReflection

variable {source : Text} {s : TokenStream} {all ts us : List Symbol} {t : Symbol} {i j k : Nat}

/-! ## The namespaces of a printed header -/

/-- The namespaces of items that are printed from index `i` on. -/
def Items.namespacesAt (i : Nat) : Items → List Namespace
  | nil => []
  | scope name body rest =>
      let brace := i + (scopeHead name).length
      let close := brace + 1 + body.symbols.length
      ⟨i, brace, close⟩ :: (namespacesAt (brace + 1) body ++ namespacesAt (close + 1) rest)
  | noise n rest => namespacesAt (i + n.symbols.length) rest
  | field type name rest => namespacesAt (i + (fieldSymbols type name).length) rest
  | struct head body rest =>
      let brace := i + head.symbols.length
      let close := brace + 1 + body.symbols.length
      namespacesAt (brace + 1) body ++ namespacesAt (close + 2) rest
  | enum head cases rest =>
      let brace := i + head.symbols.length
      let close := brace + 1 + (caseSymbols cases).length
      namespacesAt (close + 2) rest

/-- The braces of the namespaces are among the symbols of the items. -/
theorem Items.bounds_of_mem_namespacesAt {items : Items} {n : Namespace}
    (h : n ∈ items.namespacesAt i) :
    i < n.brace ∧ n.brace < n.close ∧ n.close < i + items.symbols.length := by
  induction items generalizing i with
  | nil => simp [namespacesAt] at h
  | scope name body rest ihbody ihrest =>
      rw [length_symbols_scope]
      rcases List.mem_cons.1 h with rfl | h
      · have : 0 < (scopeHead name).length := by simp [scopeHead]
        simp only
        omega
      rcases List.mem_append.1 h with h | h
      · have := ihbody h
        omega
      · have := ihrest h
        omega
  | noise n rest ih =>
      rw [length_symbols_noise]
      have := ih h
      omega
  | field type name rest ih =>
      rw [length_symbols_field]
      have := ih h
      omega
  | struct head body rest ihbody ihrest =>
      rw [length_symbols_struct]
      rcases List.mem_append.1 h with h | h
      · have := ihbody h
        omega
      · have := ihrest h
        omega
  | enum head cases rest ih =>
      rw [length_symbols_enum]
      have := ih h
      omega

/-- The namespaces whose keywords are among `n` tokens from index `i` on. -/
def namespacesIn (s : TokenStream) (i n : Nat) : List Namespace :=
  (List.range' i n).filterMap (Namespace.at? s)

theorem namespacesIn_add (m n : Nat) :
    namespacesIn s i (m + n) = namespacesIn s i m ++ namespacesIn s (i + m) n := by
  rw [namespacesIn, ← List.range'_append_1, List.filterMap_append]
  rfl

theorem namespacesIn_succ (n : Nat) :
    namespacesIn s i (n + 1) = (Namespace.at? s i).toList ++ namespacesIn s (i + 1) n := by
  rw [namespacesIn, List.range'_succ, List.filterMap_cons]
  cases Namespace.at? s i <;> rfl

/-- A namespace starts at its keyword. -/
theorem at?_eq_none_of_isIdent (h : s.isIdent i "namespace".toList = false) :
    Namespace.at? s i = none := by
  rw [Namespace.at?, ScopeTree.namespaceBody, h]
  rfl

theorem namespacesIn_mark (h : Reads s all) {m : Mark} (hi : all[i]? = some (.mark m)) (n : Nat) :
    namespacesIn s i (n + 1) = namespacesIn s (i + 1) n := by
  have hnone : s.isIdent i "namespace".toList = false := by
    rw [h.isIdent_eq hi]
    rfl
  rw [namespacesIn_succ, at?_eq_none_of_isIdent hnone]
  rfl

/-- Symbols without the keyword start no namespace. -/
theorem namespacesIn_of_lacks (h : Reads s all) (hat : StandsAt all i ts)
    (hts : Lacks .namespaceWord ts) : namespacesIn s i ts.length = [] := by
  induction ts generalizing i with
  | nil => rfl
  | cons t ts ih =>
      rw [Lacks, List.forall_mem_cons] at hts
      have hnone : s.isIdent i "namespace".toList = false := by
        rw [h.isIdent_eq hat.head]
        exact hts.1
      rw [List.length_cons, namespacesIn_succ, at?_eq_none_of_isIdent hnone, ih hat.tail hts.2]
      rfl

/-- Among braceless symbols no body opens. -/
theorem isPunct_of_braceless (h : Reads s all) (hat : StandsAt all i ts) (hts : Braceless ts)
    (hij : i ≤ j) (hj : j < i + ts.length) : s.isPunct j '\x7b' = false := by
  obtain ⟨t, hmem, ht⟩ := hat.exists_mem hij hj
  rw [h.isPunct_eq ht]
  exact decide_eq_false (Symbol.kind_ne_of_isBrace (hts t hmem)).1

/-- A keyword before a semicolon starts no namespace. -/
theorem at?_of_semicolon (h : Reads s all)
    (hat : StandsAt all i (Keyword.namespaceWord.symbol :: (ts ++ .mark .semicolon :: us)))
    (hts : Braceless ts) : Namespace.at? s i = none := by
  cases hn : Namespace.at? s i with
  | none => rfl
  | some n =>
      obtain ⟨rfl, hspec⟩ := Namespace.at?_eq_some.1 hn
      obtain ⟨hlt, hbrace, hall⟩ := Namespace.bodyBrace_eq_some.1 hspec.brace
      have hsemi := hat.tail.right.head
      rcases Nat.lt_trichotomy n.brace (n.keyword + 1 + ts.length) with hb | hb | hb
      · have := isPunct_of_braceless h hat.tail.left hts hlt hb
        simp [hbrace] at this
      · rw [hb, h.isPunct_eq hsemi] at hbrace
        simp [Symbol.kind, Mark.char] at hbrace
      · have := (hall _ (by omega) hb).1
        rw [h.isPunct_eq hsemi] at this
        simp [Symbol.kind, Mark.char] at this

/-- A keyword before a body starts the namespace of the body. -/
theorem at?_of_body (h : Reads s all) (hs : tokenize source = .ok s) {body : List Symbol}
    (hat : StandsAt all i (Keyword.namespaceWord.symbol ::
      (ts ++ .mark .openBrace :: (body ++ .mark .closeBrace :: us))))
    (hts : ∀ t ∈ ts, t.isMark = false) (hbody : Balanced (body.map (·.kind))) :
    Namespace.at? s i =
      some ⟨i, i + 1 + ts.length, i + 1 + ts.length + 1 + body.length⟩ := by
  refine Namespace.at?_eq_some.2 ⟨rfl, ?_, ?_, h.closer_eq hs hat.tail.right hbody⟩
  · show s.isIdent i Keyword.namespaceWord.text
    rw [h.isIdent_eq hat.head]
    rfl
  · refine Namespace.bodyBrace_eq_some.2 ⟨by simp only; omega, ?_, fun j hij hj => ?_⟩
    · show s.isPunct (i + 1 + ts.length) _
      rw [h.isPunct_eq hat.tail.right.head]
      rfl
    · obtain ⟨t, hmem, ht⟩ := hat.tail.left.exists_mem hij hj
      have hkind := Symbol.kind_ne_of_isMark (hts t hmem)
      rw [h.isPunct_eq ht, h.isPunct_eq ht]
      exact ⟨decide_eq_false (hkind _), decide_eq_false (hkind _)⟩

/-! ## All namespaces -/

namespace Items

variable {items : Items}

theorem isMark_scopeHead (name : Option QualifiedName) :
    ∀ t ∈ name.elim [] (·.symbols), t.isMark = false := by
  cases name with
  | none => exact List.forall_mem_nil _
  | some q => exact q.forall_mem_symbols (P := fun t => t.isMark = false) rfl fun _ => rfl

theorem lacks_scopeName (name : Option QualifiedName) {k : Keyword} (hk : k ∈ Keyword.reserved) :
    Lacks k (name.elim [] (·.symbols)) := by
  cases name with
  | none => exact List.forall_mem_nil _
  | some q => exact q.lacks hk

/-- A statement that declares nothing starts no namespace with a body. -/
theorem namespacesIn_noise (h : Reads s all) (n : Noise) (hat : StandsAt all i n.symbols) :
    namespacesIn s i n.symbols.length = [] := by
  have hreserved : Keyword.namespaceWord ∈ Keyword.reserved := by simp [Keyword.reserved]
  have hlacks : ∀ q : QualifiedName, Lacks .namespaceWord (q.symbols ++ [.mark .semicolon]) := by
    intro q t ht
    rcases List.mem_append.1 ht with ht | ht
    · exact q.lacks hreserved t ht
    · obtain rfl : t = .mark .semicolon := by simpa using ht
      rfl
  cases n with
  | usingNamespace q =>
      have husing : s.isIdent i "namespace".toList = false := by
        rw [h.isIdent_eq hat.head]
        rfl
      simp only [Noise.symbols, List.length_cons] at hat ⊢
      rw [namespacesIn_succ, at?_eq_none_of_isIdent husing, namespacesIn_succ,
        at?_of_semicolon h hat.tail q.braceless, namespacesIn_of_lacks h hat.tail.tail (hlacks q)]
      rfl
  | namespaceAlias n q =>
      have hbraceless : Braceless (n.symbol :: .mark .equals :: q.symbols) :=
        List.forall_mem_cons.2 ⟨rfl, List.forall_mem_cons.2 ⟨rfl, q.braceless⟩⟩
      have hrest : Lacks .namespaceWord
          (n.symbol :: .mark .equals :: (q.symbols ++ [.mark .semicolon])) :=
        List.forall_mem_cons.2 ⟨n.isNamed_symbol hreserved,
          List.forall_mem_cons.2 ⟨rfl, hlacks q⟩⟩
      simp only [Noise.symbols, List.length_cons] at hat ⊢
      rw [namespacesIn_succ, at?_of_semicolon h hat hbraceless]
      exact namespacesIn_of_lacks h hat.tail hrest

theorem lacks_fieldSymbols (type : QualifiedName) (name : Name) {k : Keyword}
    (hk : k ∈ Keyword.reserved) (hne : k ≠ .reflect) : Lacks k (fieldSymbols type name) := by
  intro t ht
  rcases List.mem_append.1 ht with ht | ht
  · exact type.lacks hk t ht
  · simp only [List.mem_cons, List.not_mem_nil, or_false] at ht
    rcases ht with rfl | rfl | rfl | rfl | rfl
    · exact Keyword.isNamed_of_ne hne
    · rfl
    · exact name.isNamed_symbol hk
    · rfl
    · rfl

/-- The namespaces among the tokens of printed items are those of the items. -/
theorem namespacesIn_eq (h : Reads s all) (hs : tokenize source = .ok s)
    (hat : StandsAt all i items.symbols) :
    namespacesIn s i items.symbols.length = items.namespacesAt i := by
  have hreserved : Keyword.namespaceWord ∈ Keyword.reserved := by simp [Keyword.reserved]
  -- Item by item: a head without the keyword gives nothing, and neither do the marks around a body.
  induction items generalizing i with
  | nil => rfl
  | scope name body rest ihbody ihrest =>
      have hinner := hat.right.tail
      have hclose := hinner.right
      have hname := namespacesIn_of_lacks h hat.left.tail (lacks_scopeName name hreserved)
      have hlen : i + 1 + (name.elim [] (·.symbols)).length = i + (scopeHead name).length := by
        simp only [scopeHead, List.length_cons]
        omega
      have hhead : namespacesIn s i (scopeHead name).length =
          [⟨i, i + (scopeHead name).length,
            i + (scopeHead name).length + 1 + body.symbols.length⟩] := by
        rw [← hlen, scopeHead, List.length_cons, namespacesIn_succ,
          at?_of_body h hs hat (isMark_scopeHead name) body.balanced, hname]
        rfl
      rw [symbols, List.length_append, namespacesIn_add, hhead, List.length_cons,
        namespacesIn_mark h hat.right.head, List.length_append, namespacesIn_add,
        ihbody hinner.left, List.length_cons, namespacesIn_mark h hclose.head, ihrest hclose.tail]
      rfl
  | noise n rest ih =>
      rw [symbols, List.length_append, namespacesIn_add, namespacesIn_noise h n hat.left,
        ih hat.right]
      rfl
  | field type name rest ih =>
      rw [symbols, List.length_append, namespacesIn_add, ih hat.right,
        namespacesIn_of_lacks h hat.left (lacks_fieldSymbols type name hreserved (by simp))]
      rfl
  | struct head body rest ihbody ihrest =>
      have hinner := hat.right.tail
      have hclose := hinner.right
      have hhead := namespacesIn_of_lacks h hat.left (head.lacks hreserved (by simp) (by simp))
      rw [symbols, List.length_append, namespacesIn_add, hhead, List.length_cons,
        namespacesIn_mark h hat.right.head, List.length_append, namespacesIn_add,
        ihbody hinner.left, List.length_cons, namespacesIn_mark h hclose.head, List.length_cons,
        namespacesIn_mark h hclose.tail.head, ihrest hclose.tail.tail]
      rfl
  | enum head cases rest ih =>
      have hinner := hat.right.tail
      have hclose := hinner.right
      have hhead := namespacesIn_of_lacks h hat.left (head.lacks hreserved (by simp) (by simp))
      have hcases := namespacesIn_of_lacks h hinner.left (lacks_caseSymbols cases hreserved)
      rw [symbols, List.length_append, namespacesIn_add, hhead, List.length_cons,
        namespacesIn_mark h hat.right.head, List.length_append, namespacesIn_add, hcases,
        List.length_cons, namespacesIn_mark h hclose.head, List.length_cons,
        namespacesIn_mark h hclose.tail.head, ih hclose.tail.tail]
      rfl

/-- No body closes in the head of a namespace. -/
theorem isPunct_of_mem_namespacesAt (h : Reads s all) (hat : StandsAt all i items.symbols)
    {n : Namespace} (hn : n ∈ items.namespacesAt i) (hj : n.keyword < j) (hjb : j < n.brace) :
    s.isPunct j '\x7d' = false := by
  induction items generalizing i with
  | nil => simp [namespacesAt] at hn
  | scope name body rest ihbody ihrest =>
      have hinner := hat.right.tail
      rcases List.mem_cons.1 hn with rfl | hn
      · simp only [scopeHead, List.length_cons] at hjb
        obtain ⟨t, hmem, ht⟩ := hat.left.tail.exists_mem hj (by omega)
        rw [h.isPunct_eq ht]
        exact decide_eq_false (Symbol.kind_ne_of_isMark (isMark_scopeHead name t hmem) _)
      rcases List.mem_append.1 hn with hn | hn
      · exact ihbody hinner.left hn
      · exact ihrest hinner.right.tail hn
  | noise n rest ih => exact ih hat.right hn
  | field type name rest ih => exact ih hat.right hn
  | struct head body rest ihbody ihrest =>
      have hinner := hat.right.tail
      rcases List.mem_append.1 hn with hn | hn
      · exact ihbody hinner.left hn
      · exact ihrest hinner.right.tail.tail hn
  | enum head cases rest ih => exact ih hat.right.tail.right.tail.tail hn

/-- The namespaces of the stream are those that the header was printed with. -/
theorem all_eq_namespacesAt (h : Reads s items.symbols) (hs : tokenize source = .ok s) :
    Namespace.all s = items.namespacesAt 0 := by
  rw [Namespace.all, Namespace.below, List.range_eq_range', h.size_eq]
  exact namespacesIn_eq h hs (StandsAt.all_zero _)

/-- No namespace of a printed header takes its body from behind the body around it. -/
theorem headsStayInside (h : Reads s items.symbols) (hs : tokenize source = .ok s) :
    ScopeTree.HeadsStayInside s := by
  intro m hm n hn _ hbehind hbefore
  have hms := Namespace.spec_of_mem hm
  have hns := Namespace.spec_of_mem hn
  have hclose := hms.isPunct_close hs
  rw [all_eq_namespacesAt h hs] at hn
  -- The closing brace of `m` would stand in the head of `n`, and printed heads have none.
  rcases Nat.lt_trichotomy n.brace m.close with hlt | heq | hlt
  · exact hlt
  · rw [← heq] at hclose
    simpa using TokenStream.eq_of_isPunct hns.isPunct_brace hclose
  · have := isPunct_of_mem_namespacesAt h (StandsAt.all_zero _) hn hbefore hlt
    simp [hclose] at this

end Items

/-! ## Qualifiers -/

/-- Is the token at index `k` in the body of the namespace, braces included? -/
def Namespace.holds (n : Namespace) (k : Nat) : Bool :=
  n.brace ≤ k && k ≤ n.close

/-- The names of the namespaces that hold the token at index `k`, but for empty ones. -/
def enclosing (s : TokenStream) (namespaces : List Namespace) (k : Nat) : List Text :=
  ((namespaces.filter (·.holds k)).map (·.name s)).filter (!·.isEmpty)

section Enclosing

variable {l l' : List Namespace} {items : Items} {around : List Text}

theorem enclosing_append : enclosing s (l ++ l') k = enclosing s l k ++ enclosing s l' k := by
  simp only [enclosing, List.filter_append, List.map_append]

/-- Namespaces that do not hold the token give no names. -/
theorem enclosing_eq_nil (h : ∀ n ∈ l, n.holds k = false) : enclosing s l k = [] := by
  have hnone : l.filter (·.holds k) = [] := List.filter_eq_nil_iff.2 fun n hn => by simp [h n hn]
  rw [enclosing, hnone]
  rfl

theorem enclosing_cons {n : Namespace} :
    enclosing s (n :: l) k = enclosing s [n] k ++ enclosing s l k := by
  have hsplit : n :: l = [n] ++ l := rfl
  rw [hsplit, enclosing_append]

theorem enclosing_singleton {n : Namespace} (h : n.holds k) :
    enclosing s [n] k = [n.name s].filter (!·.isEmpty) := by
  rw [enclosing, List.filter_singleton, h]
  rfl

/-- The namespaces of items hold no token before or behind them. -/
theorem enclosing_namespacesAt_eq_nil (items : Items)
    (h : k ≤ i ∨ i + items.symbols.length ≤ k) : enclosing s (items.namespacesAt i) k = [] := by
  refine enclosing_eq_nil fun n hn => ?_
  have := Items.bounds_of_mem_namespacesAt hn
  simp only [Namespace.holds, Bool.and_eq_false_iff, decide_eq_false_iff_not]
  omega

/-- The qualifier at a token joins the names of the namespaces that hold it. -/
theorem qualifierAt_offset (hs : tokenize source = .ok s) (hinside : ScopeTree.HeadsStayInside s)
    (hk : k < s.size) :
    (ScopeTree.build s).qualifierAt (s.offset k) =
      Text.joinWith "::".toList (enclosing s (Namespace.all s) k) := by
  have hflat : (ScopeTree.build s).qualifierAt (s.offset k) =
      (ScopeTree.build s).flatQualifier (s.offset k) := by
    rw [ScopeTree.qualifierAt_eq_flat_iff_chain hs]
    exact fun node hnode hname => ScopeTree.contains_of_headsStayInside hs hinside hnode hname
  -- Offsets grow with the index, so the range of a body has the offset just when the body has the
  -- token.
  have hholds : ∀ n ∈ Namespace.all s, (n.range s).contains (s.offset k) = n.holds k := by
    intro n hn
    have hspec := Namespace.spec_of_mem hn
    rw [Bool.eq_iff_iff, ScopeTree.contains_range, Namespace.holds, Bool.and_eq_true,
      decide_eq_true_iff, decide_eq_true_iff,
      TokenStream.offset_le_iff hs (TokenStream.lt_size_of_isPunct hspec.isPunct_brace) hk,
      TokenStream.offset_le_iff hs hk (TokenStream.lt_size_of_isPunct (hspec.isPunct_close hs))]
  have hfilter : (Namespace.all s).filter ((·.contains (s.offset k)) ∘ (·.range s)) =
      (Namespace.all s).filter (·.holds k) := List.filter_congr hholds
  rw [hflat, ScopeTree.flatQualifier, ScopeTree.ranges_build, List.filter_map, List.map_map, hfilter]
  rfl

/-- The items are printed from index `i` on, in namespaces with the given names: a token in them is in
these and in those of the items that hold it. -/
def PrintedIn (s : TokenStream) (i : Nat) (items : Items) (around : List Text) : Prop :=
  ∀ k, i ≤ k → k < i + items.symbols.length →
    enclosing s (Namespace.all s) k = around ++ enclosing s (items.namespacesAt i) k

/-- The header itself is printed in no namespace. -/
theorem printedIn_zero (h : Reads s items.symbols) (hs : tokenize source = .ok s) :
    PrintedIn s 0 items [] := by
  intro k _ _
  rw [Items.all_eq_namespacesAt h hs]
  rfl

end Enclosing

namespace PrintedIn

variable {items part body rest : Items} {around inner : List Text} {name : Option QualifiedName}

/-- A part of the items that is in the namespaces with the given names. -/
theorem of_part (h : PrintedIn s i items around) (hij : i ≤ j)
    (hlen : j + part.symbols.length ≤ i + items.symbols.length)
    (hpart : ∀ k, j ≤ k → k < j + part.symbols.length →
      enclosing s (items.namespacesAt i) k = inner ++ enclosing s (part.namespacesAt j) k) :
    PrintedIn s j part (around ++ inner) := by
  intro k hjk hk
  rw [h k (by omega) (by omega), hpart k hjk hk, List.append_assoc]

/-- A part in the same namespaces. -/
theorem of_part_same (h : PrintedIn s i items around) (hij : i ≤ j)
    (hlen : j + part.symbols.length ≤ i + items.symbols.length)
    (hpart : ∀ k, j ≤ k → k < j + part.symbols.length →
      enclosing s (items.namespacesAt i) k = enclosing s (part.namespacesAt j) k) :
    PrintedIn s j part around := by
  have hnil : PrintedIn s j part (around ++ []) := h.of_part hij hlen hpart
  rwa [List.append_nil] at hnil

/-- The tokens of a head are in no namespace of the items. -/
theorem enclosing_head {head : List Symbol} (h : PrintedIn s i items around)
    (hsymbols : ∃ tail, items.symbols = head ++ tail)
    (hinner : ∀ k, i ≤ k → k < i + head.length → enclosing s (items.namespacesAt i) k = [])
    (hik : i ≤ k) (hk : k < i + head.length) : enclosing s (Namespace.all s) k = around := by
  obtain ⟨tail, hsymbols⟩ := hsymbols
  rw [h k hik (by rw [hsymbols, List.length_append]; omega), hinner k hik hk, List.append_nil]

theorem noise {n : Noise} (h : PrintedIn s i (.noise n rest) around) :
    PrintedIn s (i + n.symbols.length) rest around := by
  refine h.of_part_same (by omega) ?_ fun k _ _ => rfl
  rw [Items.length_symbols_noise]
  omega

theorem field {type : QualifiedName} {n : Name} (h : PrintedIn s i (.field type n rest) around) :
    PrintedIn s (i + (Items.fieldSymbols type n).length) rest around := by
  refine h.of_part_same (by omega) ?_ fun k _ _ => rfl
  rw [Items.length_symbols_field]
  omega

section Enum

variable {head : EnumHead} {cases : List Name}

theorem enum_head (h : PrintedIn s i (.enum head cases rest) around) (hik : i ≤ k)
    (hk : k < i + head.symbols.length) : enclosing s (Namespace.all s) k = around := by
  refine h.enclosing_head ⟨_, rfl⟩ (fun k _ hk => ?_) hik hk
  exact enclosing_namespacesAt_eq_nil rest (by omega)

theorem enum_rest (h : PrintedIn s i (.enum head cases rest) around) :
    PrintedIn s (i + head.symbols.length + 1 + (caseSymbols cases).length + 2) rest around := by
  refine h.of_part_same (by omega) ?_ fun k _ _ => rfl
  rw [Items.length_symbols_enum]
  omega

end Enum

section Struct

variable {head : StructHead}

theorem struct_head (h : PrintedIn s i (.struct head body rest) around) (hik : i ≤ k)
    (hk : k < i + head.symbols.length) : enclosing s (Namespace.all s) k = around := by
  refine h.enclosing_head ⟨_, rfl⟩ (fun k _ hk => ?_) hik hk
  rw [Items.namespacesAt, enclosing_append, enclosing_namespacesAt_eq_nil body (by omega),
    enclosing_namespacesAt_eq_nil rest (by omega)]
  rfl

/-- A struct is no namespace: its body is printed where the struct is. -/
theorem struct_body (h : PrintedIn s i (.struct head body rest) around) :
    PrintedIn s (i + head.symbols.length + 1) body around := by
  refine h.of_part_same (by omega) ?_ fun k _ hk => ?_
  · rw [Items.length_symbols_struct]
    omega
  · rw [Items.namespacesAt, enclosing_append, enclosing_namespacesAt_eq_nil rest (by omega),
      List.append_nil]

theorem struct_rest (h : PrintedIn s i (.struct head body rest) around) :
    PrintedIn s (i + head.symbols.length + 1 + body.symbols.length + 2) rest around := by
  refine h.of_part_same (by omega) ?_ fun k hk _ => ?_
  · rw [Items.length_symbols_struct]
    omega
  · rw [Items.namespacesAt, enclosing_append, enclosing_namespacesAt_eq_nil body (by omega)]
    rfl

end Struct

section Scope

/-- A namespace is read with the name that it was printed with. -/
theorem name_of_standsAt (h : Reads s all)
    (hat : StandsAt all i (Items.scope name body rest).symbols) {brace close : Nat}
    (hbrace : brace = i + (Items.scopeHead name).length) :
    Namespace.name s ⟨i, brace, close⟩ = (name.map (·.text)).getD [] := by
  have hspells := h.spells_of_standsAt hat.tail (by simp)
  have hlen : brace = i + 1 + (name.elim [] (·.symbols)).length := by
    rw [hbrace, Items.scopeHead, List.length_cons]
    omega
  rw [Namespace.name, hlen]
  cases name with
  | none =>
      rw [Spells.eq_nil hspells]
      rfl
  | some q => exact q.trim_eq hspells

/-- The body of a namespace is printed in that namespace, too. -/
theorem scope_body (h : PrintedIn s i (.scope name body rest) around) (hs : Reads s all)
    (hat : StandsAt all i (Items.scope name body rest).symbols) :
    PrintedIn s (i + (Items.scopeHead name).length + 1) body
      (around ++ (name.map (·.text)).toList) := by
  refine h.of_part (by omega) ?_ fun k hik hk => ?_
  · rw [Items.length_symbols_scope]
    omega
  · have hholds : Namespace.holds ⟨i, i + (Items.scopeHead name).length,
        i + (Items.scopeHead name).length + 1 + body.symbols.length⟩ k := by
      simp only [Namespace.holds, Bool.and_eq_true, decide_eq_true_eq]
      omega
    rw [Items.namespacesAt, enclosing_cons, enclosing_append,
      enclosing_namespacesAt_eq_nil rest (by omega), List.append_nil, enclosing_singleton hholds,
      name_of_standsAt hs hat rfl]
    congr 1
    cases name with
    | none => rfl
    | some q => simp [q.text_ne_nil]

theorem scope_rest (h : PrintedIn s i (.scope name body rest) around) :
    PrintedIn s (i + (Items.scopeHead name).length + 1 + body.symbols.length + 1) rest around := by
  refine h.of_part_same (by omega) ?_ fun k hk _ => ?_
  · rw [Items.length_symbols_scope]
    omega
  · have hholds : ∀ n ∈ [(⟨i, i + (Items.scopeHead name).length,
        i + (Items.scopeHead name).length + 1 + body.symbols.length⟩ : Namespace)],
          n.holds k = false := by
      simp only [List.forall_mem_singleton, Namespace.holds, Bool.and_eq_false_iff,
        decide_eq_false_iff_not]
      omega
    rw [Items.namespacesAt, enclosing_cons, enclosing_append, enclosing_eq_nil hholds,
      enclosing_namespacesAt_eq_nil body (by omega)]
    rfl

end Scope

end PrintedIn

end HeaderReflection
