/-
  HeaderReflection.Proofs.ParentWalk

  The walk from a namespace to its parents ends. A parent is a namespace whose
  keyword comes earlier and whose body does not end before the keyword of the
  child; so its index is smaller, and the walk to a qualifier goes through
  falling indices, none of them out of the tree, and no further than there are
  nodes.
-/
import HeaderReflection.Proofs.Qualifier

namespace HeaderReflection

namespace ScopeTree

/-! ## The walk -/

/-- From the node at an index, if there is one, the walk to the parents goes through the nodes at the
given indices and ends. It cannot go on from an index that is out of the tree. -/
inductive Visits (t : ScopeTree) : Option Nat → List Nat → Prop
  | done : Visits t none []
  | visit {i : Nat} {node : ScopeNode} {path : List Nat} (is_node : t.nodes[i]? = some node)
      (rest : Visits t node.parent path) : Visits t (some i) (i :: path)

variable {t : ScopeTree} {s : TokenStream} {i k offset : Nat} {start : Option Nat}
variable {path path' : List Nat} {node : ScopeNode} {n : Namespace}

/-- There is only one walk from a node. -/
theorem Visits.unique (h : t.Visits start path) (h' : t.Visits start path') : path' = path := by
  induction h generalizing path' with
  | done =>
      cases h'
      rfl
  | @visit i node path hnode _ ih =>
      cases h' with
      | visit hnode' hrest' =>
        obtain rfl := Option.some.inj (hnode.symm.trans hnode')
        rw [ih hrest']

/-- A chain of parents is a walk. -/
theorem visits_of_parentPath (h : ParentPath t.nodes path) : t.Visits path.head? path := by
  induction h with
  | nil => exact .done
  | cons hnode hparent _ _ ih => exact .visit hnode (hparent ▸ ih)

/-! ## Nodes and their parents -/

/-- The node at `i` is that of the namespace `n`: the two have the same place in their lists, and the
node has the name and the braces of the namespace. -/
structure NodeOf (s : TokenStream) (i : Nat) (node : ScopeNode) (n : Namespace) : Prop where
  is_node : (build s).nodes[i]? = some node
  nth : (Namespace.all s)[i]? = some n
  spec : n.Spec s
  range : node.range = n.range s

/-- Every node is that of a namespace. -/
theorem exists_nodeOf (h : (build s).nodes[i]? = some node) : ∃ n, NodeOf s i node n := by
  have hrange : (build s).ranges[i]? = some node.range := by
    rw [getElem?_ranges, h, Option.map_some]
  rw [getElem?_ranges_build] at hrange
  obtain ⟨n, hn, hrange⟩ := Option.map_eq_some_iff.1 hrange
  exact ⟨n, h, hn, Namespace.spec_of_mem (List.mem_of_getElem? hn), hrange.symm⟩

/-- The parent of a node is that of a namespace that comes earlier and is still open at the keyword. -/
theorem NodeOf.exists_parent (hn : NodeOf s i node n) (hk : node.parent = some k) :
    k < i ∧ ∃ parent m, NodeOf s k parent m ∧ m.keyword < n.keyword ∧ n.keyword ≤ m.close := by
  obtain ⟨outer, haround⟩ := around_build hn.nth
  -- The parent is the head of the namespaces around this one.
  cases haround.path with
  | @cons _ node' _ hnode' hparent hlt _ =>
    obtain rfl := Option.some.inj (hn.is_node.symm.trans hnode')
    have hhead : outer.head? = some k := hparent.symm.trans hk
    have hmem : k ∈ outer := List.mem_of_mem_head? hhead
    have hsize : k < (build s).nodes.size := haround.path.lt_size (List.mem_cons_of_mem _ hmem)
    obtain ⟨m, hm⟩ := exists_nodeOf (Array.getElem?_eq_getElem hsize)
    obtain ⟨m', hm', hclose⟩ := haround.parent k hhead
    obtain rfl := Option.some.inj (hm'.symm.trans hm.nth)
    have hkeyword := (Namespace.keyword_lt_iff hm.nth hn.nth).2 (hlt k hmem)
    exact ⟨hlt k hmem, _, m', hm, hkeyword, hclose⟩

/-! ## The walk to a qualifier -/

/-- The walk from the innermost namespace of a byte is a chain of parents. -/
theorem exists_path_innermost (s : TokenStream) (offset : Nat) :
    ∃ path, ParentPath (build s).nodes path ∧ path.head? = (build s).innermost offset := by
  cases h : (build s).innermost offset with
  | none => exact ⟨[], .nil, rfl⟩
  | some i =>
    obtain ⟨n, outer, -, -, haround, -⟩ := exists_around_innermost h
    exact ⟨i :: outer, haround.path, rfl⟩

/-- Every node is that of a namespace, and its parent, if it has one, is a node before it: that of a
namespace whose keyword comes earlier and whose closing brace does not come before the keyword of the
child. So from every byte the walk to the qualifier goes through strictly falling indices of nodes, no
more than there are, and ends; the qualifier joins the names of these nodes, the last one first. -/
theorem qualifier_walk_ends (s : TokenStream) :
    (∀ i node, (build s).nodes[i]? = some node → ∃ n, NodeOf s i node n ∧
      ∀ k, node.parent = some k → k < i ∧ k < (build s).nodes.size ∧
        ∃ parent m, NodeOf s k parent m ∧ m.keyword < n.keyword ∧ n.keyword ≤ m.close) ∧
    ∀ offset, ∃ path, (build s).Visits ((build s).innermost offset) path ∧
      (∀ path', (build s).Visits ((build s).innermost offset) path' → path' = path) ∧
      path.Pairwise (fun i k => k < i) ∧ (∀ i ∈ path, i < (build s).nodes.size) ∧
      path.length ≤ (build s).nodes.size ∧
      (build s).qualifierAt offset =
        joinNames ((path.reverse.filterMap ((build s).ranges[·]?)).map (·.name)) := by
  refine ⟨fun i node hnode => ?_, fun offset => ?_⟩
  · obtain ⟨n, hn⟩ := exists_nodeOf hnode
    refine ⟨n, hn, fun k hk => ?_⟩
    obtain ⟨hki, hparent⟩ := hn.exists_parent hk
    have hi : i < (build s).nodes.size := (Array.getElem?_eq_some_iff.1 hnode).1
    exact ⟨hki, hki.trans hi, hparent⟩
  · obtain ⟨path, hpath, hhead⟩ := exists_path_innermost s offset
    have hvisits : (build s).Visits ((build s).innermost offset) path :=
      hhead ▸ visits_of_parentPath hpath
    exact ⟨path, hvisits, fun path' h' => hvisits.unique h', hpath.sorted,
      fun i hi => hpath.lt_size hi, hpath.length_le, qualifierAt_of_path hpath hhead⟩

end ScopeTree

end HeaderReflection
