/-
  HeaderReflection.Proofs.Qualifier

  The two readings of a qualifier: the chain of parents from the innermost
  namespace that holds a byte, and the flat list of all namespaces that hold
  it. The chain holds every namespace of the list. It holds more if the head of
  a namespace reaches out of the body that its keyword stands in: the namespace
  of that body stays its ancestor, but does not hold its bytes.
-/
import HeaderReflection.Proofs.ScopeTree
import Mathlib.Algebra.GroupWithZero.Nat
import Mathlib.Data.List.Induction
import Mathlib.Data.List.Sort

namespace HeaderReflection

/-! ## Joined names -/

/-- The names that are not empty, joined by colons. -/
def joinNames (names : List Text) : Text :=
  Text.joinWith "::".toList (names.filter (!·.isEmpty))

theorem length_joinWith {sep : Text} {parts : List Text} :
    (Text.joinWith sep parts).length = (parts.map (·.length + sep.length)).sum - sep.length := by
  induction parts with
  | nil => simp [Text.joinWith, List.intercalate_nil]
  | cons p parts ih =>
      cases parts with
      | nil => simp [Text.joinWith, List.intercalate_singleton]
      | cons q parts =>
        rw [Text.joinWith, List.intercalate_cons_cons, ← Text.joinWith]
        simp only [List.length_append, ih, List.map_cons, List.sum_cons]
        omega

/-- Leaving out a part that is not empty takes away more than a separator. -/
theorem eq_or_sum_lt_of_sublist {n : Nat} {parts parts' : List Text} (h : parts.Sublist parts')
    (hparts : ∀ p ∈ parts', p ≠ []) :
    parts = parts' ∨ (parts.map (·.length + n)).sum + n < (parts'.map (·.length + n)).sum := by
  induction h with
  | slnil => exact Or.inl rfl
  | @cons l₁ l₂ p hsub ih =>
      have hp := List.length_pos_iff.2 (hparts p (by simp))
      refine Or.inr ?_
      simp only [List.map_cons, List.sum_cons]
      rcases ih fun q hq => hparts q (by simp [hq]) with rfl | hlt
      · omega
      · omega
  | @cons_cons l₁ l₂ p hsub ih =>
      rcases ih fun q hq => hparts q (by simp [hq]) with rfl | hlt
      · exact Or.inl rfl
      · refine Or.inr ?_
        simp only [List.map_cons, List.sum_cons]
        omega

/-- No part can be left out of a joined text. -/
theorem eq_of_joinWith_eq {sep : Text} {parts parts' : List Text} (h : parts.Sublist parts')
    (hparts : ∀ p ∈ parts', p ≠ []) (heq : Text.joinWith sep parts = Text.joinWith sep parts') :
    parts = parts' := by
  rcases eq_or_sum_lt_of_sublist (n := sep.length) h hparts with h | hlt
  · exact h
  · have hlen := congrArg List.length heq
    rw [length_joinWith, length_joinWith] at hlen
    omega

/-- The names of ranges that are not empty are the names of the named ranges. -/
theorem filter_map_name (ranges : List ScopeRange) :
    (ranges.map (·.name)).filter (!·.isEmpty) =
      (ranges.filter fun r => !r.name.isEmpty).map (·.name) := by
  rw [List.filter_map]
  rfl

/-- Leaving out ranges keeps the joined names just when no named range is left out. -/
theorem joinNames_filter_eq_iff {ranges : List ScopeRange} {q : ScopeRange → Bool} :
    joinNames (ranges.map (·.name)) = joinNames ((ranges.filter q).map (·.name)) ↔
      ∀ r ∈ ranges, r.name ≠ [] → q r := by
  rw [joinNames, joinNames, filter_map_name, filter_map_name, List.filter_comm]
  set named := ranges.filter fun r => !r.name.isEmpty with hnamed
  have hmem : ∀ r, r ∈ named ↔ r ∈ ranges ∧ r.name ≠ [] := by simp [hnamed]
  constructor
  · intro heq r hr hname
    have hne : ∀ p ∈ named.map (·.name), p ≠ [] := by
      intro p hp
      obtain ⟨r, hr, rfl⟩ := List.mem_map.1 hp
      exact ((hmem r).1 hr).2
    have hnames := eq_of_joinWith_eq ((List.filter_sublist (p := q)).map _) hne heq.symm
    have hall : named.filter q = named := by
      refine (List.filter_sublist (p := q)).eq_of_length ?_
      simpa using congrArg List.length hnames
    exact (List.filter_eq_self.1 hall) r ((hmem r).2 ⟨hr, hname⟩)
  · intro hall
    rw [List.filter_eq_self.2 fun r hr => hall r ((hmem r).1 hr).1 ((hmem r).1 hr).2]

/-! ## The chain and the flat list -/

section Indices

variable {α : Type} {l : List α} {q : α → Bool} {path : List Nat}

/-- Reading a list at all its indices gives the list. -/
theorem filterMap_getElem?_range (l : List α) : (List.range l.length).filterMap (l[·]?) = l := by
  induction l using List.reverseRecOn with
  | nil => rfl
  | append_singleton l a ih =>
      rw [List.length_append, List.length_singleton, List.range_succ, List.filterMap_append]
      have hfront : (List.range l.length).filterMap ((l ++ [a])[·]?) = l := by
        conv_rhs => rw [← ih]
        refine List.filterMap_congr fun i hi => ?_
        exact List.getElem?_append_left (List.mem_range.1 hi)
      rw [hfront]
      simp

theorem filter_filterMap_getElem? :
    (path.filterMap (l[·]?)).filter q =
      (path.filter fun i => (l[i]?).any q).filterMap (l[·]?) := by
  induction path with
  | nil => rfl
  | cons i path ih =>
      cases h : l[i]? with
      | none => simp [h, ih]
      | some a => by_cases ha : q a <;> simp [h, ha, ih]

/-- If falling indices hold all places where a test passes, then what passes it is found by reading
the list at these indices backwards. -/
theorem filter_eq_of_indices (hsorted : path.Pairwise fun i j => j < i)
    (hall : ∀ i a, l[i]? = some a → q a → i ∈ path) :
    l.filter q = (path.reverse.filterMap (l[·]?)).filter q := by
  conv_lhs => rw [← filterMap_getElem?_range l]
  rw [filter_filterMap_getElem?, filter_filterMap_getElem?]
  congr 1
  refine List.Pairwise.eq_of_mem_iff (r := (· < ·)) (List.pairwise_lt_range.filter _)
    ((List.pairwise_reverse.2 hsorted).filter _) fun i => ?_
  simp only [List.mem_filter, List.mem_range, List.mem_reverse, Option.any_eq_true]
  constructor
  · rintro ⟨-, a, ha, hq⟩
    exact ⟨hall i a ha hq, a, ha, hq⟩
  · rintro ⟨-, a, ha, hq⟩
    exact ⟨(List.getElem?_eq_some_iff.1 ha).1, a, ha, hq⟩

end Indices

namespace ScopeTree

variable {source : Text} {s : TokenStream} {offset i j : Nat} {t : ScopeTree} {m n : Namespace}

/-- The qualifier read off the flat list: the names of all ranges that hold the byte, in the order of
their keywords. -/
def flatQualifier (t : ScopeTree) (offset : Nat) : Text :=
  joinNames ((t.ranges.filter (·.contains offset)).map (·.name))

/-- The range of a node is that of its place in the flat list. -/
theorem getElem?_ranges : t.ranges[i]? = (t.nodes[i]?).map (·.range) := by
  simp [ranges]

/-- The qualifier read off the tree joins the names of a chain, the outermost first. -/
theorem qualifierAt_of_path {path : List Nat} (h : ParentPath t.nodes path)
    (hhead : path.head? = t.innermost offset) :
    t.qualifierAt offset = joinNames ((path.reverse.filterMap (t.ranges[·]?)).map (·.name)) := by
  have hchain := h.chain_eq h.length_le
  rw [hhead] at hchain
  have hnames : ((t.chain t.nodes.size (t.innermost offset)).map (·.name)).reverse =
      (path.reverse.filterMap (t.ranges[·]?)).map (·.name) := by
    rw [hchain, List.filterMap_reverse, List.map_reverse, List.map_filterMap, List.map_filterMap]
    simp only [getElem?_ranges, Option.map_map]
    rfl
  rw [qualifierAt, joinNames, ← hnames, List.filter_reverse]

/-- The innermost namespace of a byte is the last one that holds it. -/
theorem innermost_eq_some (h : t.innermost offset = some i) :
    (∃ r, t.ranges[i]? = some r ∧ r.contains offset) ∧
      ∀ (j : Nat) (r : ScopeRange), t.ranges[j]? = some r → r.contains offset → j ≤ i := by
  rw [innermost, List.find?_eq_some_iff_append] at h
  obtain ⟨hi, before, after, hsplit, hbefore⟩ := h
  have hfall : (before ++ i :: after).Pairwise fun j k => k < j := by
    rw [← hsplit]
    exact List.pairwise_reverse.2 List.pairwise_lt_range
  refine ⟨?_, fun j r hr hcontains => ?_⟩
  · obtain ⟨node, hnode, hcontains⟩ := (Option.any_eq_true _ _).1 hi
    exact ⟨node.range, by simp [getElem?_ranges, hnode], hcontains⟩
  · obtain ⟨node, hnode, rfl⟩ := Option.map_eq_some_iff.1 (getElem?_ranges.symm.trans hr)
    have hj : j ∈ before ++ i :: after := by
      rw [← hsplit]
      simpa using (Array.getElem?_eq_some_iff.1 hnode).1
    rcases List.mem_append.1 hj with hj | hj
    · have := hbefore j hj
      simp [hnode, hcontains] at this
    · rcases List.mem_cons.1 hj with rfl | hj
      · exact Nat.le_refl j
      · exact Nat.le_of_lt (List.rel_of_pairwise_cons (List.pairwise_append.1 hfall).2.1 hj)

/-- A byte without an innermost namespace is in none. -/
theorem innermost_eq_none (h : t.innermost offset = none) :
    ∀ r ∈ t.ranges, r.contains offset = false := by
  intro r hr
  obtain ⟨j, hj⟩ := List.mem_iff_getElem?.1 hr
  obtain ⟨node, hnode, rfl⟩ := Option.map_eq_some_iff.1 (getElem?_ranges.symm.trans hj)
  have hlt : j < t.nodes.size := (Array.getElem?_eq_some_iff.1 hnode).1
  rw [innermost, List.find?_eq_none] at h
  have := h j (by simpa using hlt)
  simpa [hnode] using this

/-! ## What the chain of a byte holds -/

/-- The range of a namespace holds a byte between its braces. -/
theorem contains_range : (n.range s).contains offset ↔
    s.offset n.brace ≤ offset ∧ offset ≤ s.offset n.close := by
  rw [ScopeRange.contains, Bool.and_eq_true]
  exact and_congr decide_eq_true_iff decide_eq_true_iff

theorem getElem?_ranges_build :
    (build s).ranges[i]? = ((Namespace.all s)[i]?).map (·.range s) := by
  simp [ranges_build]

/-- Of two namespaces that hold a byte, the earlier one closes behind the keyword of the later. -/
theorem keyword_le_close (hs : tokenize source = .ok s) (hm : m.Spec s) (hn : n.Spec s)
    (hmo : (m.range s).contains offset) (hno : (n.range s).contains offset) :
    n.keyword ≤ m.close := by
  obtain ⟨-, hmc⟩ := contains_range.1 hmo
  obtain ⟨hnb, -⟩ := contains_range.1 hno
  have hle : s.offset n.brace ≤ s.offset m.close := Nat.le_trans hnb hmc
  rw [TokenStream.offset_le_iff hs (TokenStream.lt_size_of_isPunct hn.isPunct_brace)
    (TokenStream.lt_size_of_isPunct (hm.isPunct_close hs))] at hle
  have := hn.keyword_lt
  omega

/-- Every namespace that holds a byte is in the chain of parents of the last one that does. -/
theorem mem_path_of_contains (hs : tokenize source = .ok s) {outer : List Nat} {r : ScopeRange}
    (hi : (Namespace.all s)[i]? = some n) (haround : Around s (build s).nodes i n outer)
    (hno : (n.range s).contains offset)
    (hlast : ∀ (j : Nat) (r : ScopeRange), (build s).ranges[j]? = some r → r.contains offset → j ≤ i)
     (hj : (build s).ranges[j]? = some r) (hr : r.contains offset) :
    j ∈ i :: outer := by
  rcases Nat.eq_or_lt_of_le (hlast j r hj hr) with rfl | hlt
  · exact List.mem_cons_self
  · rw [getElem?_ranges_build] at hj
    obtain ⟨m, hm, rfl⟩ := Option.map_eq_some_iff.1 hj
    have hle := keyword_le_close hs (Namespace.spec_of_mem (List.mem_of_getElem? hm))
      (Namespace.spec_of_mem (List.mem_of_getElem? hi)) hr hno
    exact List.mem_cons_of_mem _ (haround.holds j m hlt hm hle)

/-- The two readings of a qualifier agree at a byte just when every named namespace in the chain of
its innermost one holds it. -/
theorem qualifierAt_eq_flat_iff_chain (hs : tokenize source = .ok s) (offset : Nat) :
    (build s).qualifierAt offset = (build s).flatQualifier offset ↔
      ∀ node ∈ (build s).chain (build s).nodes.size ((build s).innermost offset),
        node.name ≠ [] → node.range.contains offset := by
  cases h : (build s).innermost offset with
  | none =>
      have hnone := innermost_eq_none h
      have hchain : (build s).chain (build s).nodes.size none = [] := by
        cases (build s).nodes.size <;> rfl
      have hflat : (build s).ranges.filter (·.contains offset) = [] :=
        List.filter_eq_nil_iff.2 fun r hr => by simp [hnone r hr]
      have hwalk : (build s).qualifierAt offset = joinNames [] :=
        qualifierAt_of_path .nil (by rw [h]; rfl)
      simp [hchain, hwalk, flatQualifier, hflat]
  | some i =>
      obtain ⟨⟨r, hr, hcontains⟩, hlast⟩ := innermost_eq_some h
      rw [getElem?_ranges_build] at hr
      obtain ⟨n, hn, rfl⟩ := Option.map_eq_some_iff.1 hr
      obtain ⟨outer, haround⟩ := around_build hn
      have hflat := filter_eq_of_indices (q := (·.contains offset)) haround.path.sorted
        fun j r hj hrc => mem_path_of_contains hs hn haround hcontains hlast hj hrc
      have hchain := haround.path.chain_eq haround.path.length_le
      rw [List.head?_cons] at hchain
      -- One reading joins the names on the path, the other those of them that hold the byte.
      rw [qualifierAt_of_path haround.path (by rw [h]; rfl), flatQualifier, hflat,
        joinNames_filter_eq_iff, hchain]
      simp only [List.mem_filterMap, List.mem_reverse, getElem?_ranges, Option.map_eq_some_iff]
      constructor
      · rintro hall node ⟨j, hj, hnode⟩ hname
        exact hall node.range ⟨j, hj, node, hnode, rfl⟩ hname
      · rintro hall _ ⟨j, hj, node, hnode, rfl⟩ hname
        exact hall node ⟨j, hj, hnode⟩ hname

/-! ## Heads that stay inside -/

/-- No head of a namespace reaches out of the body of a named namespace: if the keyword stands in
that body, so does the brace. -/
def HeadsStayInside (s : TokenStream) : Prop :=
  ∀ m ∈ Namespace.all s, ∀ n ∈ Namespace.all s, m.name s ≠ [] →
    m.brace < n.keyword → n.keyword < m.close → n.brace < m.close

instance (s : TokenStream) : Decidable (HeadsStayInside s) :=
  inferInstanceAs (Decidable (∀ m ∈ Namespace.all s, ∀ n ∈ Namespace.all s, m.name s ≠ [] →
    m.brace < n.keyword → n.keyword < m.close → n.brace < m.close))

/-- If heads stay inside, a namespace whose keyword stands before the closing brace of a named one
closes before it as well. -/
theorem close_le_close (hs : tokenize source = .ok s) (h : HeadsStayInside s)
    (hm : m ∈ Namespace.all s) (hn : n ∈ Namespace.all s) (hname : m.name s ≠ [])
    (hlt : m.keyword < n.keyword) (hkeyword : n.keyword ≤ m.close) : n.close ≤ m.close := by
  have hms := Namespace.spec_of_mem hm
  have hns := Namespace.spec_of_mem hn
  rcases hms.shares_or_behind hns hlt with ⟨-, hclose⟩ | hbehind
  · exact Nat.le_of_eq hclose
  have hne : n.keyword ≠ m.close := by
    intro heq
    have hword := TokenStream.isPunct_of_isIdent (c := '\x7d') hns.is_keyword
    rw [heq, hms.isPunct_close hs] at hword
    simp at hword
  have hin := h m hm n hn hname hbehind (by omega)
  rcases TokenStream.closer_laminar hs hms.close hns.close (by have := hns.keyword_lt; omega) with
    hapart | hinside
  · omega
  · exact Nat.le_of_lt hinside

/-- If heads stay inside, the named namespaces in a chain of parents are all around its first one. -/
theorem encloses_of_mem_outer (hs : tokenize source = .ok s) (h : HeadsStayInside s)
    {outer : List Nat} (hi : (Namespace.all s)[i]? = some n)
    (haround : Around s (build s).nodes i n outer) (hj : j ∈ outer)
    (hm : (Namespace.all s)[j]? = some m) (hname : m.name s ≠ []) :
    m.brace ≤ n.brace ∧ n.close ≤ m.close := by
  -- By induction along the chain: the parent closes behind the keyword, and so do those around it.
  induction outer generalizing i n with
  | nil => simp at hj
  | cons k outer ih =>
      have hn := List.mem_of_getElem? hi
      have hmem := List.mem_of_getElem? hm
      have hfall := haround.path.sorted
      obtain ⟨p, hp, hpkeyword⟩ := haround.parent k rfl
      have hki : k < i := List.rel_of_pairwise_cons hfall List.mem_cons_self
      have hpn := (Namespace.keyword_lt_iff hp hi).2 hki
      have hbrace := (Namespace.spec_of_mem (List.mem_of_getElem? hp)).brace_le
        (Namespace.spec_of_mem hn) hpn
      rcases List.mem_cons.1 hj with rfl | hj
      · obtain rfl := Option.some.inj (hp.symm.trans hm)
        exact ⟨hbrace, close_le_close hs h hmem hn hname hpn hpkeyword⟩
      · obtain ⟨outer', haround'⟩ := around_build hp
        obtain rfl := haround.path.tail.unique haround'.path
        obtain ⟨hmb, hmc⟩ := ih hp haround' hj
        have hjk : j < k := List.rel_of_pairwise_cons (List.pairwise_cons.1 hfall).2 hj
        have hmp := (Namespace.keyword_lt_iff hm hp).2 hjk
        exact ⟨by omega, close_le_close hs h hmem hn hname (by omega) (by omega)⟩

/-- The chain of the innermost namespace of a byte, by the namespaces it stands for. -/
theorem exists_around_innermost (h : (build s).innermost offset = some i) :
    ∃ n outer, (Namespace.all s)[i]? = some n ∧ (n.range s).contains offset ∧
      Around s (build s).nodes i n outer ∧
      (build s).chain (build s).nodes.size (some i) =
        (i :: outer).filterMap ((build s).nodes[·]?) := by
  obtain ⟨⟨r, hr, hcontains⟩, -⟩ := innermost_eq_some h
  rw [getElem?_ranges_build] at hr
  obtain ⟨n, hn, rfl⟩ := Option.map_eq_some_iff.1 hr
  obtain ⟨outer, haround⟩ := around_build hn
  exact ⟨n, outer, hn, hcontains, haround, haround.path.chain_eq haround.path.length_le⟩

/-- A namespace is in the chain of every byte at the start of a body whose keyword stands in its own
body. -/
theorem mem_chain_of_brace (hs : tokenize source = .ok s) (hm : m ∈ Namespace.all s)
    (hn : n ∈ Namespace.all s) (hlt : m.keyword < n.keyword) (hkeyword : n.keyword ≤ m.close) :
    ∃ node ∈ (build s).chain (build s).nodes.size ((build s).innermost (s.offset n.brace)),
      node.range = m.range s := by
  have hns := Namespace.spec_of_mem hn
  obtain ⟨j, hj⟩ := List.mem_iff_getElem?.1 hm
  obtain ⟨k, hk⟩ := List.mem_iff_getElem?.1 hn
  have hkr : (build s).ranges[k]? = some (n.range s) := by simp [getElem?_ranges_build, hk]
  have hno : (n.range s).contains (s.offset n.brace) :=
    contains_range.2 ⟨Nat.le_refl _, TokenStream.offset_le hs (Nat.le_of_lt (hns.brace_lt hs))
      (TokenStream.lt_size_of_isPunct (hns.isPunct_close hs))⟩
  cases h : (build s).innermost (s.offset n.brace) with
  | none =>
      have := innermost_eq_none h _ (List.mem_of_getElem? hkr)
      simp [hno] at this
  | some i =>
      obtain ⟨a, outer, ha, hao, haround, hchain⟩ := exists_around_innermost h
      have hkmem := mem_path_of_contains hs ha haround hao (innermost_eq_some h).2 hkr hno
      -- The chain from `k` on is the chain of `k`, which holds `m`.
      have hjmem : j ∈ i :: outer := by
        obtain ⟨front, back, hsplit⟩ := List.append_of_mem hkmem
        have hpath : ParentPath (build s).nodes (k :: back) := by
          refine haround.path.suffix ?_
          rw [hsplit]
          exact List.suffix_append _ _
        obtain ⟨outer', haround'⟩ := around_build hk
        obtain rfl := hpath.unique haround'.path
        have hjk := (Namespace.keyword_lt_iff hj hk).1 hlt
        rw [hsplit]
        exact List.mem_append_right _ (List.mem_cons_of_mem _ (haround'.holds j m hjk hj hkeyword))
      have hjr : (build s).ranges[j]? = some (m.range s) := by simp [getElem?_ranges_build, hj]
      obtain ⟨node, hnode, hrange⟩ := Option.map_eq_some_iff.1 (getElem?_ranges.symm.trans hjr)
      rw [hchain]
      exact ⟨node, List.mem_filterMap.2 ⟨j, hjmem, hnode⟩, hrange⟩

/-- If the readings agree at the first byte of every body, heads stay inside. -/
theorem headsStayInside_of_eq (hs : tokenize source = .ok s)
    (hall : ∀ offset, (build s).qualifierAt offset = (build s).flatQualifier offset) :
    HeadsStayInside s := by
  intro m hm n hn hname hbehind hbefore
  have hms := Namespace.spec_of_mem hm
  have hns := Namespace.spec_of_mem hn
  have hmb := hms.keyword_lt
  obtain ⟨node, hnode, hrange⟩ := mem_chain_of_brace hs hm hn (by omega) (Nat.le_of_lt hbefore)
  have hname' : node.name ≠ [] := by
    have : node.name = m.name s := congrArg ScopeRange.name hrange
    rwa [this]
  have hcontains :=
    (qualifierAt_eq_flat_iff_chain hs _).1 (hall (s.offset n.brace)) node hnode hname'
  rw [hrange] at hcontains
  have hle := (contains_range.1 hcontains).2
  rw [TokenStream.offset_le_iff hs (TokenStream.lt_size_of_isPunct hns.isPunct_brace)
    (TokenStream.lt_size_of_isPunct (hms.isPunct_close hs))] at hle
  refine Nat.lt_of_le_of_ne hle fun heq => ?_
  have hclose := hms.isPunct_close hs
  rw [← heq] at hclose
  simpa using TokenStream.eq_of_isPunct hns.isPunct_brace hclose

/-- If heads stay inside, the named namespaces in the chain of a byte hold it. -/
theorem contains_of_headsStayInside (hs : tokenize source = .ok s) (h : HeadsStayInside s)
    {node : ScopeNode}
    (hnode : node ∈ (build s).chain (build s).nodes.size ((build s).innermost offset))
    (hname : node.name ≠ []) : node.range.contains offset := by
  cases hi : (build s).innermost offset with
  | none =>
      rw [hi] at hnode
      cases hsize : (build s).nodes.size <;> simp [chain, hsize] at hnode
  | some i =>
      obtain ⟨n, outer, hn, hcontains, haround, hchain⟩ := exists_around_innermost hi
      rw [hi, hchain] at hnode
      obtain ⟨j, hj, hjnode⟩ := List.mem_filterMap.1 hnode
      have hjr : (build s).ranges[j]? = some node.range := by simp [getElem?_ranges, hjnode]
      rw [getElem?_ranges_build] at hjr
      obtain ⟨m, hm, hrange⟩ := Option.map_eq_some_iff.1 hjr
      rw [← hrange]
      rcases List.mem_cons.1 hj with rfl | hj
      · obtain rfl := Option.some.inj (hn.symm.trans hm)
        exact hcontains
      have hname' : m.name s ≠ [] := by
        have : m.name s = node.name := congrArg ScopeRange.name hrange
        rwa [this]
      -- Any other one encloses the innermost, which holds the byte.
      obtain ⟨hbrace, hclose⟩ := encloses_of_mem_outer hs h hn haround hj hm hname'
      have hms := Namespace.spec_of_mem (List.mem_of_getElem? hm)
      have hns := Namespace.spec_of_mem (List.mem_of_getElem? hn)
      obtain ⟨hlo, hhi⟩ := contains_range.1 hcontains
      refine contains_range.2 ⟨Nat.le_trans (TokenStream.offset_le hs hbrace ?_) hlo,
        Nat.le_trans hhi (TokenStream.offset_le hs hclose ?_)⟩
      · exact TokenStream.lt_size_of_isPunct hns.isPunct_brace
      · exact TokenStream.lt_size_of_isPunct (hms.isPunct_close hs)

/-- The two readings of a qualifier, along the chain of parents and off the flat list, agree at a byte
just when every named namespace in the chain of its innermost one holds it; and they agree at every
byte just when no head of a namespace reaches out of the body of a named one. -/
theorem qualifierAt_eq_flatQualifier_iff (hs : tokenize source = .ok s) :
    (∀ offset, (build s).qualifierAt offset = (build s).flatQualifier offset ↔
      ∀ node ∈ (build s).chain (build s).nodes.size ((build s).innermost offset),
        node.name ≠ [] → node.range.contains offset) ∧
    ((∀ offset, (build s).qualifierAt offset = (build s).flatQualifier offset) ↔
      HeadsStayInside s) := by
  refine ⟨qualifierAt_eq_flat_iff_chain hs, headsStayInside_of_eq hs, fun h offset => ?_⟩
  rw [qualifierAt_eq_flat_iff_chain hs]
  exact fun node hnode hname => contains_of_headsStayInside hs h hnode hname

/-- Nested namespaces, an anonymous one among them: the readings agree at every byte. -/
theorem qualifierAt_eq_flatQualifier_nested :
    ∃ s, tokenize "namespace A\x7bnamespace\x7bnamespace b::c\x7bint x;\x7d\x7d\x7d".toList = .ok s ∧
      ∀ offset, (build s).qualifierAt offset = (build s).flatQualifier offset := by
  have hrun : (tokenize
      "namespace A\x7bnamespace\x7bnamespace b::c\x7bint x;\x7d\x7d\x7d".toList >>=
        fun s => Except.ok (decide (HeadsStayInside s))) = .ok true := by
    decide +kernel
  obtain ⟨s, hs, hinside⟩ := bind_eq_ok.1 hrun
  injection hinside with hinside
  exact ⟨s, hs, (qualifierAt_eq_flatQualifier_iff hs).2.2 (of_decide_eq_true hinside)⟩

/-- The head of `A` reaches out of the body of `B`: the chain of the byte in its body holds `B`, and
the flat list does not. -/
theorem qualifierAt_ne_flatQualifier_escaping :
    ∃ s, tokenize "namespace B\x7bnamespace A\x7d\x7bx\x7d".toList = .ok s ∧
      (build s).qualifierAt 25 = "B::A\x7d".toList ∧
      (build s).flatQualifier 25 = "A\x7d".toList := by
  have hrun : (tokenize "namespace B\x7bnamespace A\x7d\x7bx\x7d".toList >>= fun s =>
      Except.ok ((build s).qualifierAt 25, (build s).flatQualifier 25)) =
        .ok ("B::A\x7d".toList, "A\x7d".toList) := by
    decide +kernel
  obtain ⟨s, hs, hpair⟩ := bind_eq_ok.1 hrun
  injection hpair with hpair
  exact ⟨s, hs, congrArg Prod.fst hpair, congrArg Prod.snd hpair⟩

end ScopeTree

end HeaderReflection
