/-
  HeaderReflection.Proofs.ScopeTree

  What the scope tree of a header holds. Its nodes are the namespaces in the
  order of their keywords, and the stack of open namespaces is at any time the
  chain of parents of its top: it holds every namespace that closes behind the
  token that is read, and it may hold others below them.
-/
import HeaderReflection.Proofs.BracePairs
import HeaderReflection.Scope

namespace HeaderReflection

/-! ## Namespaces by their tokens -/

/-- A namespace with a body, by the indices of its keyword and of its braces. -/
structure Namespace where
  keyword : Nat
  brace : Nat
  close : Nat
  deriving DecidableEq

namespace Namespace

/-- The text between the keyword and the body. -/
def name (s : TokenStream) (n : Namespace) : Text :=
  (s.textBetween (n.keyword + 1) n.brace).trim

/-- The name with the bytes of the braces. -/
def range (s : TokenStream) (n : Namespace) : ScopeRange :=
  ⟨n.name s, s.offset n.brace, s.offset n.close⟩

/-- The namespace whose keyword is at index `k`, if there is one. -/
def at? (s : TokenStream) (k : Nat) : Option Namespace :=
  (ScopeTree.namespaceBody s k).map fun (brace, close) => ⟨k, brace, close⟩

/-- The namespaces whose keywords stand before index `i`. -/
def below (s : TokenStream) (i : Nat) : List Namespace :=
  (List.range i).filterMap (at? s)

/-- All namespaces of a header, in the order of their keywords. -/
def all (s : TokenStream) : List Namespace :=
  below s s.size

variable {source : Text} {s : TokenStream} {i k : Nat} {m n : Namespace}

theorem below_succ : below s (i + 1) = below s i ++ (at? s i).toList := by
  rw [below, List.range_succ, List.filterMap_append]
  cases h : at? s i with
  | none => simp [below, h]
  | some n => simp [below, h]

/-- What has been met is the first part of all there is. -/
theorem below_prefix (h : i ≤ s.size) : below s i <+: all s := by
  obtain ⟨d, hd⟩ := Nat.exists_eq_add_of_le h
  rw [all, below, below, hd, List.range_add, List.filterMap_append]
  exact List.prefix_append _ _

/-- The body of a namespace opens at the first brace behind its keyword, and no semicolon stands
before it. -/
theorem bodyBrace_eq_some {b : Nat} :
    ScopeTree.bodyBrace s k = some b ↔ k < b ∧ s.isPunct b '{' ∧
      ∀ j, k < j → j < b → s.isPunct j ';' = false ∧ s.isPunct j '{' = false := by
  rw [ScopeTree.bodyBrace, TokenStream.indices, TokenStream.find?_takeWhile_range']
  simp only [Bool.not_eq_true', Nat.min_self, Nat.succ_le_iff]
  constructor
  · rintro ⟨hk, -, hb, hall⟩
    exact ⟨hk.1, hb, hall⟩
  · rintro ⟨hk, hb, hall⟩
    have hsize := TokenStream.lt_size_of_isPunct hb
    refine ⟨⟨hk, by omega⟩, ?_, hb, hall⟩
    refine Bool.eq_false_iff.2 fun hsemi => ?_
    simpa using TokenStream.eq_of_isPunct hb hsemi

/-- What the tokens of a namespace are. -/
structure Spec (s : TokenStream) (n : Namespace) : Prop where
  is_keyword : s.isIdent n.keyword "namespace".toList
  brace : ScopeTree.bodyBrace s n.keyword = some n.brace
  close : s.closer n.brace = some n.close

theorem at?_eq_some : at? s k = some n ↔ n.keyword = k ∧ n.Spec s := by
  rcases n with ⟨keyword, brace, close⟩
  simp only [at?, ScopeTree.namespaceBody, Option.map_eq_some_iff, Prod.exists, mk.injEq]
  constructor
  · rintro ⟨b, c, h, rfl, rfl, rfl⟩
    split at h
    · next hk =>
      obtain ⟨b', hb, h⟩ := Option.bind_eq_some_iff.1 h
      obtain ⟨c', hc, h⟩ := Option.map_eq_some_iff.1 h
      cases h
      exact ⟨rfl, hk, hb, hc⟩
    · simp at h
  · rintro ⟨rfl, hk, hb, hc⟩
    refine ⟨brace, close, ?_, rfl, rfl, rfl⟩
    simp only at hk hb hc
    rw [if_pos hk, hb, Option.bind_some, hc]
    rfl

theorem spec_of_mem (h : n ∈ all s) : n.Spec s := by
  obtain ⟨k, -, hk⟩ := List.mem_filterMap.1 h
  exact (at?_eq_some.1 hk).2

theorem mem_all_of_spec (h : n.Spec s) : n ∈ all s :=
  List.mem_filterMap.2 ⟨n.keyword,
    List.mem_range.2 (TokenStream.lt_size_of_isIdent h.is_keyword), at?_eq_some.2 ⟨rfl, h⟩⟩

/-- The namespaces stand in the order of their keywords. -/
theorem all_sorted : (all s).Pairwise fun m n => m.keyword < n.keyword := by
  refine List.Pairwise.filterMap _ (fun i j hij m hm n hn => ?_) List.pairwise_lt_range
  rw [(at?_eq_some.1 hm).1, (at?_eq_some.1 hn).1]
  exact hij

namespace Spec

theorem keyword_lt (h : n.Spec s) : n.keyword < n.brace :=
  (bodyBrace_eq_some.1 h.brace).1

theorem isPunct_brace (h : n.Spec s) : s.isPunct n.brace '{' :=
  (bodyBrace_eq_some.1 h.brace).2.1

theorem isPunct_close (hs : tokenize source = .ok s) (h : n.Spec s) : s.isPunct n.close '}' :=
  (TokenStream.closer_spec hs h.close).2.1

theorem brace_lt (hs : tokenize source = .ok s) (h : n.Spec s) : n.brace < n.close :=
  (TokenStream.closer_spec hs h.close).2.2

/-- Of two namespaces the later one either has its keyword behind the brace of the earlier one, or
shares its body. -/
theorem shares_or_behind (hm : m.Spec s) (hn : n.Spec s) (hlt : m.keyword < n.keyword) :
    (n.brace = m.brace ∧ n.close = m.close) ∨ m.brace < n.keyword := by
  obtain ⟨-, hmb, hmall⟩ := bodyBrace_eq_some.1 hm.brace
  obtain ⟨hnk, hnb, hnall⟩ := bodyBrace_eq_some.1 hn.brace
  by_cases hbehind : m.brace < n.keyword
  · exact Or.inr hbehind
  have hne : m.brace ≠ n.keyword := by
    intro heq
    have := TokenStream.isPunct_of_isIdent (c := '{') hn.is_keyword
    rw [← heq, hmb] at this
    simp at this
  have hbrace : n.brace = m.brace := by
    rcases Nat.lt_trichotomy n.brace m.brace with hlt' | heq | hlt'
    · have := (hmall n.brace (by omega) hlt').2
      simp [hnb] at this
    · exact heq
    · have := (hnall m.brace (by omega) hlt').2
      simp [hmb] at this
  have hclose := hn.close
  rw [hbrace, hm.close] at hclose
  exact Or.inl ⟨hbrace, (Option.some.inj hclose).symm⟩

/-- Later keywords have later bodies, or the same. -/
theorem brace_le (hm : m.Spec s) (hn : n.Spec s) (hlt : m.keyword < n.keyword) :
    m.brace ≤ n.brace := by
  rcases hm.shares_or_behind hn hlt with ⟨hbrace, -⟩ | hbehind
  · omega
  · have := hn.keyword_lt
    omega

end Spec

/-- The order of the list is the order of the keywords. -/
theorem keyword_lt_iff {i j : Nat} (hm : (all s)[i]? = some m) (hn : (all s)[j]? = some n) :
    m.keyword < n.keyword ↔ i < j := by
  obtain ⟨hi, rfl⟩ := List.getElem?_eq_some_iff.1 hm
  obtain ⟨hj, rfl⟩ := List.getElem?_eq_some_iff.1 hn
  have hsorted := List.pairwise_iff_getElem.1 (all_sorted (s := s))
  rcases Nat.lt_trichotomy i j with hlt | rfl | hlt
  · have := hsorted i j hi hj hlt
    omega
  · omega
  · have := hsorted j i hj hi hlt
    omega

end Namespace

/-! ## Chains of parents -/

/-- The node indices form a chain: each node is followed by its parent, which stands before it, and
the last one has none. -/
inductive ParentPath (nodes : Array ScopeNode) : List Nat → Prop
  | nil : ParentPath nodes []
  | cons {i : Nat} {node : ScopeNode} {outer : List Nat} (is_node : nodes[i]? = some node)
      (parent : node.parent = outer.head?) (lt : ∀ j ∈ outer, j < i)
      (rest : ParentPath nodes outer) : ParentPath nodes (i :: outer)

namespace ParentPath

variable {nodes : Array ScopeNode} {i : Nat} {path outer outer' : List Nat}

theorem tail (h : ParentPath nodes (i :: outer)) : ParentPath nodes outer := by
  cases h with
  | cons _ _ _ rest => exact rest

theorem suffix (h : ParentPath nodes path) (hsuffix : outer <:+ path) : ParentPath nodes outer := by
  induction path with
  | nil =>
      obtain rfl := List.suffix_nil.1 hsuffix
      exact h
  | cons i path ih =>
      rcases List.suffix_cons_iff.1 hsuffix with rfl | hsuffix
      · exact h
      · exact ih h.tail hsuffix

/-- A new node at the end changes no chain. -/
theorem push (h : ParentPath nodes path) (node : ScopeNode) : ParentPath (nodes.push node) path := by
  induction h with
  | nil => exact .nil
  | @cons i node' outer hnode hparent hlt _ ih =>
      have hi : i < nodes.size := (Array.getElem?_eq_some_iff.1 hnode).1
      have hpush : (nodes.push node)[i]? = some node' := by
        rw [Array.getElem?_push_lt hi, ← hnode, Array.getElem?_eq_getElem hi]
      exact .cons hpush hparent hlt ih

theorem lt_size (h : ParentPath nodes path) (hi : i ∈ path) : i < nodes.size := by
  induction h with
  | nil => simp at hi
  | cons hnode _ _ _ ih =>
      rcases List.mem_cons.1 hi with rfl | hi
      · exact (Array.getElem?_eq_some_iff.1 hnode).1
      · exact ih hi

/-- A node has one chain. -/
theorem unique (h : ParentPath nodes (i :: outer)) (h' : ParentPath nodes (i :: outer')) :
    outer = outer' := by
  induction outer generalizing i outer' with
  | nil =>
      cases h with
      | cons hnode hparent _ _ =>
        cases h' with
        | cons hnode' hparent' _ _ =>
          obtain rfl := Option.some.inj (hnode.symm.trans hnode')
          rw [hparent] at hparent'
          exact (List.head?_eq_none_iff.1 hparent'.symm).symm
  | cons j outer ih =>
      cases h with
      | cons hnode hparent _ hrest =>
        cases h' with
        | cons hnode' hparent' _ hrest' =>
          obtain rfl := Option.some.inj (hnode.symm.trans hnode')
          rw [hparent] at hparent'
          obtain ⟨outer'', rfl⟩ := List.head?_eq_some_iff.1 hparent'.symm
          rw [ih hrest hrest']

/-- The indices of a chain fall. -/
theorem sorted (h : ParentPath nodes path) : path.Pairwise fun i j => j < i := by
  induction h with
  | nil => exact List.Pairwise.nil
  | cons _ _ hlt _ ih => exact List.Pairwise.cons hlt ih

/-- A chain from `i` has at most `i` links, since its indices fall. -/
theorem length_le_head (h : ParentPath nodes (i :: outer)) : outer.length ≤ i := by
  induction outer generalizing i with
  | nil => exact Nat.zero_le i
  | cons j outer ih =>
      cases h with
      | cons _ _ hlt hrest =>
        have := ih hrest
        have := hlt j List.mem_cons_self
        simp only [List.length_cons]
        omega

/-- A chain is no longer than the list of nodes. -/
theorem length_le (h : ParentPath nodes path) : path.length ≤ nodes.size := by
  cases path with
  | nil => exact Nat.zero_le _
  | cons i outer =>
      have := h.length_le_head
      have := h.lt_size List.mem_cons_self
      simp only [List.length_cons]
      omega

/-- The walk from a node goes along its chain, given enough steps. -/
theorem chain_eq {t : ScopeTree} {bound : Nat} (h : ParentPath t.nodes path)
    (hbound : path.length ≤ bound) : t.chain bound path.head? = path.filterMap (t.nodes[·]?) := by
  induction h generalizing bound with
  | nil => cases bound <;> simp [ScopeTree.chain]
  | @cons i node outer hnode hparent _ _ ih =>
      cases bound with
      | zero => simp at hbound
      | succ bound =>
        rw [ScopeTree.chain, List.filterMap_cons]
        simp only [List.head?_cons, Option.bind_some, hnode]
        rw [hparent, ih (by simpa using hbound)]

end ParentPath

/-! ## Building the tree -/

namespace ScopeTree

variable {s : TokenStream} {i k : Nat} {p : Progress} {n : Namespace} {outer : List Nat}

theorem read_of_none (h : Namespace.at? s i = none) :
    p.read s i = ⟨p.nodes, p.opened.dropWhile fun e => e.1 < i⟩ := by
  have hbody : namespaceBody s i = none := by simpa [Namespace.at?] using h
  simp [Progress.read, hbody]

theorem read_of_some (h : Namespace.at? s i = some n) :
    p.read s i = ⟨p.nodes.push ⟨n.name s, s.offset n.brace, s.offset n.close,
        ((p.opened.dropWhile fun e => e.1 < i).head?).map (·.2)⟩,
      (n.close, p.nodes.size) :: p.opened.dropWhile fun e => e.1 < i⟩ := by
  obtain ⟨rfl, -⟩ := Namespace.at?_eq_some.1 h
  have hbody : namespaceBody s n.keyword = some (n.brace, n.close) := by
    rcases n with ⟨keyword, brace, close⟩
    simpa [Namespace.at?] using h
  simp [Progress.read, hbody, Namespace.name]

/-- The node at `k` stands for the namespace `n`, and the chain of its parents is `outer`: it holds
every earlier namespace that closes behind the keyword of `n`, and the parent is one of these. -/
structure Around (s : TokenStream) (nodes : Array ScopeNode) (k : Nat) (n : Namespace)
    (outer : List Nat) : Prop where
  path : ParentPath nodes (k :: outer)
  holds : ∀ j m, j < k → (Namespace.all s)[j]? = some m → n.keyword ≤ m.close → j ∈ outer
  parent : ∀ j ∈ outer.head?, ∃ m, (Namespace.all s)[j]? = some m ∧ n.keyword ≤ m.close

theorem Around.push {nodes : Array ScopeNode} (h : Around s nodes k n outer) (node : ScopeNode) :
    Around s (nodes.push node) k n outer :=
  ⟨h.path.push node, h.holds, h.parent⟩

/-- What has been built when the tokens before index `i` are read. -/
structure Reached (s : TokenStream) (i : Nat) (p : Progress) : Prop where
  ranges : p.nodes.toList.map (·.range) = (Namespace.below s i).map (·.range s)
  path : ParentPath p.nodes (p.opened.map (·.2))
  closes : ∀ e ∈ p.opened, ∃ n, (Namespace.all s)[e.2]? = some n ∧ n.close = e.1
  is_open : ∀ k n, k < p.nodes.size → (Namespace.all s)[k]? = some n → i ≤ n.close →
    (n.close, k) ∈ p.opened
  around : ∀ k n, k < p.nodes.size → (Namespace.all s)[k]? = some n →
    ∃ outer, Around s p.nodes k n outer

theorem Reached.zero (s : TokenStream) : Reached s 0 ⟨#[], []⟩ :=
  ⟨by simp [Namespace.below], .nil, by simp, by simp, by simp⟩

theorem Reached.size_eq (h : Reached s i p) : p.nodes.size = (Namespace.below s i).length := by
  simpa using congrArg List.length h.ranges

/-- What is left of the stack at index `i`. -/
def stillOpen (p : Progress) (i : Nat) : List (Nat × Nat) :=
  p.opened.dropWhile fun e => e.1 < i

/-- Nothing is dropped that closes at `i` or behind it. -/
theorem mem_stillOpen {e : Nat × Nat} (h : e ∈ p.opened) (hle : i ≤ e.1) : e ∈ stillOpen p i := by
  rw [← List.takeWhile_append_dropWhile (p := fun e : Nat × Nat => decide (e.1 < i))
    (l := p.opened), List.mem_append] at h
  rcases h with h | h
  · have := List.all_eq_true.1 List.all_takeWhile e h
    simp only [decide_eq_true_eq] at this
    omega
  · exact h

/-- The top of what is left closes at `i` or behind it. -/
theorem le_of_head?_stillOpen {e : Nat × Nat} (h : (stillOpen p i).head? = some e) : i ≤ e.1 := by
  have htop := List.head?_dropWhile_not (fun e : Nat × Nat => decide (e.1 < i)) p.opened
  rw [show p.opened.dropWhile (fun e => decide (e.1 < i)) = stillOpen p i from rfl, h] at htop
  simpa using htop

/-- Reading a token keeps what is known about the nodes, and leaves a stack that is a chain. -/
theorem Reached.read_none (h : Reached s i p) (hn : Namespace.at? s i = none) :
    Reached s (i + 1) (p.read s i) := by
  have hsuffix : stillOpen p i <:+ p.opened := List.dropWhile_suffix _
  rw [read_of_none hn]
  refine ⟨?_, h.path.suffix (hsuffix.map _), fun e he => h.closes e (hsuffix.subset he),
    fun k n hk hkn hle => ?_, h.around⟩
  · rw [Namespace.below_succ, hn]
    simpa using h.ranges
  · exact mem_stillOpen (h.is_open k n hk hkn (by omega)) (by simpa using Nat.le_of_succ_le hle)

/-- A namespace that is met gets what is left of the stack as its chain, and goes on top of it. -/
theorem Reached.read_some (h : Reached s i p) (hi : i < s.size)
    (hn : Namespace.at? s i = some n) : Reached s (i + 1) (p.read s i) := by
  have hsuffix : stillOpen p i <:+ p.opened := List.dropWhile_suffix _
  have hkeyword : n.keyword = i := (Namespace.at?_eq_some.1 hn).1
  -- The new namespace is the next one in the list of all.
  have hnext : (Namespace.all s)[p.nodes.size]? = some n := by
    obtain ⟨rest, hrest⟩ := Namespace.below_prefix (s := s) (i := i + 1) hi
    rw [← hrest, Namespace.below_succ, hn, h.size_eq]
    simp
  rw [read_of_some hn]
  set node : ScopeNode := ⟨n.name s, s.offset n.brace, s.offset n.close,
    ((p.opened.dropWhile fun e => e.1 < i).head?).map (·.2)⟩ with hnode
  have hpath : ParentPath (p.nodes.push node) (p.nodes.size :: (stillOpen p i).map (·.2)) := by
    refine .cons Array.getElem?_push_size ?_ (fun j hj => ?_)
      ((h.path.suffix (hsuffix.map _)).push node)
    · simp [hnode, stillOpen, List.head?_map]
    · exact h.path.lt_size ((hsuffix.map _).subset hj)
  have haround : Around s (p.nodes.push node) p.nodes.size n ((stillOpen p i).map (·.2)) := by
    refine ⟨hpath, fun j m hj hm hle => ?_, fun j hj => ?_⟩
    · have hopen := mem_stillOpen (h.is_open j m hj hm (by omega)) (by simpa [hkeyword] using hle)
      exact List.mem_map.2 ⟨_, hopen, rfl⟩
    · rw [List.head?_map] at hj
      obtain ⟨e, he, rfl⟩ := Option.map_eq_some_iff.1 hj
      obtain ⟨m, hm, hclose⟩ := h.closes e (hsuffix.subset (List.mem_of_mem_head? he))
      have := le_of_head?_stillOpen he
      exact ⟨m, hm, by omega⟩
  have hsize : ∀ k, k < (p.nodes.push node).size → k < p.nodes.size ∨ k = p.nodes.size := by
    intro k hk
    rw [Array.size_push] at hk
    omega
  refine ⟨?_, hpath, fun e he => ?_, fun k m hk hm hle => ?_, fun k m hk hm => ?_⟩
  · rw [Namespace.below_succ, hn, Array.toList_push, List.map_append, List.map_append, h.ranges]
    rfl
  · rcases List.mem_cons.1 he with rfl | he
    · exact ⟨n, hnext, rfl⟩
    · exact h.closes e (hsuffix.subset he)
  · rcases hsize k hk with hk | rfl
    · exact List.mem_cons_of_mem _
        (mem_stillOpen (h.is_open k m hk hm (by omega)) (by simpa using Nat.le_of_succ_le hle))
    · obtain rfl := Option.some.inj (hnext.symm.trans hm)
      exact List.mem_cons_self
  · rcases hsize k hk with hk | rfl
    · obtain ⟨outer, houter⟩ := h.around k m hk hm
      exact ⟨outer, houter.push node⟩
    · obtain rfl := Option.some.inj (hnext.symm.trans hm)
      exact ⟨_, haround⟩

/-- One step for each token, and so for a whole header. -/
theorem reached_foldl (s : TokenStream) (hi : i ≤ s.size) :
    Reached s i ((List.range i).foldl (Progress.read s) ⟨#[], []⟩) := by
  induction i with
  | zero => exact Reached.zero s
  | succ i ih =>
      rw [List.range_succ, List.foldl_append, List.foldl_cons, List.foldl_nil]
      cases hn : Namespace.at? s i with
      | none => exact (ih (by omega)).read_none hn
      | some n => exact (ih (by omega)).read_some hi hn

/-! ## The finished tree -/

/-- The flat list holds the namespaces in the order of their keywords. -/
theorem ranges_build (s : TokenStream) : (build s).ranges = (Namespace.all s).map (·.range s) :=
  (reached_foldl s (Nat.le_refl _)).ranges

theorem size_build (s : TokenStream) : (build s).nodes.size = (Namespace.all s).length :=
  (reached_foldl s (Nat.le_refl _)).size_eq

/-- Every namespace has its node, with the chain of parents that stood on the stack when its keyword
was read. -/
theorem around_build (h : (Namespace.all s)[k]? = some n) :
    ∃ outer, Around s (build s).nodes k n outer := by
  have hk : k < (build s).nodes.size := by
    rw [size_build]
    exact (List.getElem?_eq_some_iff.1 h).1
  exact (reached_foldl s (Nat.le_refl _)).around k n hk h

end ScopeTree

end HeaderReflection
