/-
  HeaderReflection.Proofs.Joined.Scopes

  The scope tree of a stream that is put together from two parts. The second
  part is read on top of what the first one leaves: its namespaces stand behind
  those of the first, and none of these is still open. So the tokens of a part
  have the qualifiers that they have in the part by itself.
-/
import HeaderReflection.Proofs.Joined.Declarations
import HeaderReflection.Proofs.Qualifier
import Mathlib.Data.List.TakeWhile

namespace HeaderReflection

/-- The node behind `m` other ones, with `k` bytes more before it. -/
def ScopeNode.shift (m k : Nat) (node : ScopeNode) : ScopeNode :=
  ⟨node.name, k + node.start, k + node.stop, node.parent.map (m + ·)⟩

theorem ScopeNode.shift_zero (node : ScopeNode) : node.shift 0 0 = node := by
  cases node
  simp [ScopeNode.shift]

/-- The namespace with `n` tokens more before it. -/
def Namespace.shift (n : Nat) (a : Namespace) : Namespace :=
  ⟨n + a.keyword, n + a.brace, n + a.close⟩

/-! ## The namespaces of a part -/

namespace PartOf

variable {p s : TokenStream} {n k i b : Nat} {source : Text} {a : Namespace}

theorem bodyBrace_eq (h : PartOf p s n k) {name : Text} (hi : p.isIdent i name) :
    ScopeTree.bodyBrace s (n + i) = (ScopeTree.bodyBrace p i).map (n + ·) := by
  have hlt := TokenStream.lt_size_of_isIdent hi
  have hle := h.le
  have hmap : ∀ {b : Nat}, ScopeTree.bodyBrace p i = some b →
      ScopeTree.bodyBrace s (n + i) = some (n + b) := by
    intro b hb
    obtain ⟨hib, hbrace, hall⟩ := Namespace.bodyBrace_eq_some.1 hb
    have hbp := TokenStream.lt_size_of_isPunct hbrace
    refine Namespace.bodyBrace_eq_some.2 ⟨by omega, by rwa [h.isPunct_eq hbp], fun j hij hjb => ?_⟩
    obtain ⟨d, rfl⟩ := Nat.exists_eq_add_of_le (show n ≤ j by omega)
    rw [h.isPunct_eq (by omega), h.isPunct_eq (by omega)]
    exact hall d (by omega) (by omega)
  cases hp : ScopeTree.bodyBrace p i with
  | some b => exact hmap hp
  | none =>
      rw [Option.map_none, Option.eq_none_iff_forall_ne_some]
      intro b hb
      obtain ⟨hib, hbrace, hall⟩ := Namespace.bodyBrace_eq_some.1 hb
      have hbs := TokenStream.lt_size_of_isPunct hbrace
      obtain ⟨d, rfl⟩ := Nat.exists_eq_add_of_le (show n ≤ b by omega)
      -- A brace behind the part would stand behind the semicolon at its end.
      have hdp : d < p.size := by
        by_contra hge
        rcases h.behind with hend | hsemi
        · omega
        · have hne : i ≠ p.size - 1 := by
            rintro rfl
            have := TokenStream.isPunct_of_isIdent (c := ';') hi
            simp [hsemi] at this
          have := (hall (n + (p.size - 1)) (by omega) (by omega)).1
          rw [h.isPunct_eq (by omega), hsemi] at this
          simp at this
      have hsome : ScopeTree.bodyBrace p i = some d := by
        rw [h.isPunct_eq hdp] at hbrace
        refine Namespace.bodyBrace_eq_some.2 ⟨by omega, hbrace, fun j hij hjd => ?_⟩
        have := hall (n + j) (by omega) (by omega)
        rwa [h.isPunct_eq (by omega), h.isPunct_eq (by omega)] at this
      simp [hp] at hsome

theorem at?_eq (h : PartOf p s n k) (hi : i < p.size) :
    Namespace.at? s (n + i) = (Namespace.at? p i).map (Namespace.shift n) := by
  rw [Namespace.at?, Namespace.at?, ScopeTree.namespaceBody, ScopeTree.namespaceBody,
    h.isIdent_eq hi]
  split
  · next hword =>
      rw [h.bodyBrace_eq hword]
      cases hb : ScopeTree.bodyBrace p i with
      | none => rfl
      | some b =>
          have hbp := TokenStream.lt_size_of_isPunct (Namespace.bodyBrace_eq_some.1 hb).2.1
          simp only [Option.map_some, Option.bind_some, h.closer b hbp]
          cases p.closer b <;> rfl
  · rfl

theorem name_eq (h : PartOf p s n k) (ha : a.Spec p) : (a.shift n).name s = a.name p := by
  have hbrace := TokenStream.lt_size_of_isPunct ha.isPunct_brace
  have hlt := ha.keyword_lt
  rw [Namespace.name, Namespace.name, Namespace.shift, Nat.add_assoc, h.text _ _ hlt hbrace]

end PartOf

/-! ## Reading a part -/

namespace ScopeTree

variable {p s : TokenStream} {n k i j : Nat} {pre : Array ScopeNode} {q q' : Progress}

/-- The progress in the longer stream is that in its part, behind what had been read before: of the
namespaces that were open then, none goes on into the part. -/
structure Continues (n k : Nat) (pre : Array ScopeNode) (q' q : Progress) : Prop where
  nodes : q.nodes = pre ++ q'.nodes.map (ScopeNode.shift pre.size k)
  opened : ∃ stale, (∀ e ∈ stale, e.1 < n) ∧
    q.opened = (q'.opened.map fun e => (n + e.1, pre.size + e.2)) ++ stale

/-- What is left of the open namespaces at a token of the part. -/
theorem Continues.stillOpen (h : Continues n k pre q' q) (i : Nat) :
    ∃ stale, (∀ e ∈ stale, e.1 < n) ∧
      stillOpen q (n + i) = ((stillOpen q' i).map fun e => (n + e.1, pre.size + e.2)) ++ stale ∧
      (stillOpen q (n + i)).head? =
        ((stillOpen q' i).head?).map fun e => (n + e.1, pre.size + e.2) := by
  obtain ⟨stale, hstale, hopened⟩ := h.opened
  -- What was left open before the part has ended by now.
  have hdrop : stale.dropWhile (fun e => decide (e.1 < n + i)) = [] := by
    rw [List.dropWhile_eq_nil_iff]
    intro e he
    have := hstale e he
    simp only [decide_eq_true_eq]
    omega
  -- Of the part's own namespaces the same are left as in the part alone.
  have hmap : ((q'.opened.map fun e => (n + e.1, pre.size + e.2)).dropWhile
      fun e => decide (e.1 < n + i)) =
        (ScopeTree.stillOpen q' i).map fun e => (n + e.1, pre.size + e.2) := by
    rw [List.dropWhile_map]
    congr 1
    refine congrArg (List.dropWhile · q'.opened) ?_
    funext e
    simp
  have hopen : ScopeTree.stillOpen q (n + i) =
      (q'.opened.map (fun e => (n + e.1, pre.size + e.2)) ++ stale).dropWhile
        fun e => decide (e.1 < n + i) := by
    rw [ScopeTree.stillOpen, hopened]
  rw [List.dropWhile_append, hmap, hdrop] at hopen
  cases hrest : ScopeTree.stillOpen q' i with
  | nil =>
      rw [hrest] at hopen
      exact ⟨[], by simp, hopen, by rw [hopen]; rfl⟩
  | cons e rest =>
      rw [hrest] at hopen
      exact ⟨stale, hstale, hopen, by rw [hopen]; rfl⟩

/-- Reading a token of the part goes on as in the part. -/
theorem Continues.read (hpart : PartOf p s n k) (h : Continues n k pre q' q) (hi : i < p.size) :
    Continues n k pre (q'.read p i) (q.read s (n + i)) := by
  obtain ⟨stale, hstale, hopen, hhead⟩ := h.stillOpen i
  have hat := hpart.at?_eq hi
  cases hn : Namespace.at? p i with
  | none =>
      rw [hn, Option.map_none] at hat
      rw [read_of_none hn, read_of_none hat]
      exact ⟨h.nodes, stale, hstale, hopen⟩
  | some a =>
      rw [hn, Option.map_some] at hat
      have hspec := (Namespace.at?_eq_some.1 hn).2
      have hclose := hpart.closer_lt _ _ hspec.close
      have hsize : q.nodes.size = pre.size + q'.nodes.size := by simp [h.nodes]
      rw [read_of_some hn, read_of_some hat]
      refine ⟨?_, stale, hstale, ?_⟩
      · have hparent : ((ScopeTree.stillOpen q (n + i)).head?).map (·.2) =
            (((ScopeTree.stillOpen q' i).head?).map (·.2)).map (pre.size + ·) := by
          rw [hhead, Option.map_map, Option.map_map]
          rfl
        have hbrace := hpart.offset_eq (Nat.lt_trans hclose.1 hclose.2)
        simp only [h.nodes, hpart.name_eq hspec, Array.map_push, Array.append_push]
        congr 1
        rw [ScopeNode.shift, ScopeNode.mk.injEq]
        exact ⟨rfl, hbrace, hpart.offset_eq hclose.2, hparent⟩
      · have hcons := congrArg ((n + a.close, q.nodes.size) :: ·) hopen
        rw [hsize] at hcons ⊢
        exact hcons

/-- Reading the whole part goes on as in the part. -/
theorem Continues.foldl (hpart : PartOf p s n k) (h : Continues n k pre q' q) (hj : j ≤ p.size) :
    Continues n k pre ((List.range j).foldl (Progress.read p) q')
      ((List.range' n j).foldl (Progress.read s) q) := by
  induction j with
  | zero => exact h
  | succ j ih =>
      rw [List.range_succ, List.range'_1_concat, List.foldl_append, List.foldl_append]
      exact (ih (by omega)).read hpart hj

/-- The nodes of both parts stand one after the other. -/
theorem nodes_build_join {a b : TokenStream}
    (hleft : PartOf a s 0 0) (hright : PartOf b s a.size k) (hsize : s.size = a.size + b.size) :
    (build s).nodes =
      (build a).nodes ++ (build b).nodes.map (ScopeNode.shift (build a).nodes.size k) := by
  have hfirst : Continues 0 0 #[] ⟨#[], []⟩ ⟨#[], []⟩ := ⟨by simp, [], by simp, rfl⟩
  have hread := hfirst.foldl hleft (Nat.le_refl _)
  set q := (List.range a.size).foldl (Progress.read a) ⟨#[], []⟩ with hq
  set q₁ := (List.range' 0 a.size).foldl (Progress.read s) ⟨#[], []⟩ with hq₁
  have hnodes : q₁.nodes = (build a).nodes := by
    have hshift : ScopeNode.shift (#[] : Array ScopeNode).size 0 = id := funext fun node =>
      node.shift_zero
    rw [hread.nodes, hshift, Array.map_id, Array.empty_append]
    rfl
  -- What the first part leaves open closes in it.
  have hclosed : ∀ e ∈ q₁.opened, e.1 < a.size := by
    intro e he
    obtain ⟨stale, hstale, hopened⟩ := hread.opened
    rw [hopened] at he
    rcases List.mem_append.1 he with he | he
    · obtain ⟨e', he', rfl⟩ := List.mem_map.1 he
      obtain ⟨n, hn, hclose⟩ := (reached_foldl a (Nat.le_refl _)).closes e' he'
      have := (hleft.closer_lt _ _ (Namespace.spec_of_mem (List.mem_of_getElem? hn)).close).2
      simp only
      omega
    · exact absurd (hstale e he) (Nat.not_lt_zero _)
  have hsecond : Continues a.size k q₁.nodes ⟨#[], []⟩ q₁ := ⟨by simp, q₁.opened, hclosed, rfl⟩
  have hrest := (hsecond.foldl hright (Nat.le_refl _)).nodes
  rw [← hnodes]
  rw [build, hsize, List.range_eq_range', ← List.range'_append_1, List.foldl_append, Nat.zero_add]
  exact hrest

/-! ## Qualifiers in a part of a tree -/

variable {t t' : ScopeTree} {m offset : Nat} {path outer : List Nat}

/-- The nodes of `t'` stand in `t` behind `m` other ones, with `k` bytes more before them, and only
they hold the byte at `k` and `offset`. -/
structure TreePart (t' t : ScopeTree) (m k offset : Nat) : Prop where
  nodes : ∀ i node, t'.nodes[i]? = some node → t.nodes[m + i]? = some (node.shift m k)
  only : ∀ j node, t.nodes[j]? = some node → node.range.contains (k + offset) →
    ∃ i, j = m + i ∧ i < t'.nodes.size

theorem contains_iff {r : ScopeRange} : r.contains offset ↔ r.start ≤ offset ∧ offset ≤ r.stop := by
  rw [ScopeRange.contains, Bool.and_eq_true]
  exact and_congr decide_eq_true_iff decide_eq_true_iff

theorem contains_shift (node : ScopeNode) (m k offset : Nat) :
    (node.shift m k).range.contains (k + offset) = node.range.contains offset := by
  rw [Bool.eq_iff_iff, contains_iff, contains_iff]
  simp only [ScopeNode.range, ScopeNode.shift, Nat.add_le_add_iff_left]

theorem TreePart.parentPath (h : TreePart t' t m k offset) (hpath : ParentPath t'.nodes path) :
    ParentPath t.nodes (path.map (m + ·)) := by
  induction hpath with
  | nil => exact .nil
  | cons hnode hparent hlt _ ih =>
      refine .cons (h.nodes _ _ hnode) ?_ (fun j hj => ?_) ih
      · rw [List.head?_map, ← hparent]
        rfl
      · obtain ⟨i, hi, rfl⟩ := List.mem_map.1 hj
        exact Nat.add_lt_add_left (hlt i hi) m

theorem TreePart.innermost_eq (h : TreePart t' t m k offset) :
    t.innermost (k + offset) = (t'.innermost offset).map (m + ·) := by
  -- The nodes that hold the byte are those of the part, in the same order.
  have hrange : ∀ {i : Nat} {r : ScopeRange}, t'.ranges[i]? = some r → r.contains offset →
      ∃ r', t.ranges[m + i]? = some r' ∧ r'.contains (k + offset) := by
    intro i r hr hcontains
    obtain ⟨node, hnode, rfl⟩ := Option.map_eq_some_iff.1 (getElem?_ranges.symm.trans hr)
    exact ⟨_, by rw [getElem?_ranges, h.nodes i node hnode]; rfl, by rwa [contains_shift]⟩
  have hback : ∀ {j : Nat} {r : ScopeRange}, t.ranges[j]? = some r → r.contains (k + offset) →
      ∃ i r', j = m + i ∧ t'.ranges[i]? = some r' ∧ r'.contains offset := by
    intro j r hr hcontains
    obtain ⟨node, hnode, rfl⟩ := Option.map_eq_some_iff.1 (getElem?_ranges.symm.trans hr)
    obtain ⟨i, rfl, hi⟩ := h.only j node hnode hcontains
    have hnode' := h.nodes i _ (Array.getElem?_eq_getElem hi)
    obtain rfl := Option.some.inj (hnode.symm.trans hnode')
    refine ⟨i, _, rfl, by rw [getElem?_ranges, Array.getElem?_eq_getElem hi]; rfl, ?_⟩
    rwa [contains_shift] at hcontains
  cases hi : t'.innermost offset with
  | none =>
      rw [Option.map_none, Option.eq_none_iff_forall_ne_some]
      intro j hj
      obtain ⟨⟨r, hr, hcontains⟩, -⟩ := innermost_eq_some hj
      obtain ⟨i, r', -, hr', hcontains'⟩ := hback hr hcontains
      have := innermost_eq_none hi r' (List.mem_of_getElem? hr')
      simp [hcontains'] at this
  | some i =>
      obtain ⟨⟨r, hr, hcontains⟩, hlast⟩ := innermost_eq_some hi
      obtain ⟨r', hr', hcontains'⟩ := hrange hr hcontains
      cases hj : t.innermost (k + offset) with
      | none =>
          have := innermost_eq_none hj r' (List.mem_of_getElem? hr')
          simp [hcontains'] at this
      | some j =>
          obtain ⟨⟨r₂, hr₂, hcontains₂⟩, hlast'⟩ := innermost_eq_some hj
          have hle := hlast' _ _ hr' hcontains'
          obtain ⟨i₂, r₃, rfl, hr₃, hcontains₃⟩ := hback hr₂ hcontains₂
          have := hlast _ _ hr₃ hcontains₃
          rw [Option.map_some]
          congr 1
          omega

/-- A byte of the part has the qualifier that it has in the part. -/
theorem TreePart.qualifierAt_eq (h : TreePart t' t m k offset)
    (hpath : ParentPath t'.nodes path) (hhead : path.head? = t'.innermost offset) :
    t.qualifierAt (k + offset) = t'.qualifierAt offset := by
  have hhead' : (path.map (m + ·)).head? = t.innermost (k + offset) := by
    rw [h.innermost_eq, List.head?_map, hhead]
  rw [qualifierAt_of_path (h.parentPath hpath) hhead', qualifierAt_of_path hpath hhead,
    ← List.map_reverse, List.filterMap_map, List.map_filterMap, List.map_filterMap]
  congr 1
  refine List.filterMap_congr fun i hi => ?_
  have hnode := Array.getElem?_eq_getElem (hpath.lt_size (List.mem_reverse.1 hi))
  simp only [Function.comp_apply, getElem?_ranges, hnode, h.nodes i _ hnode]
  rfl

/-! ## Qualifiers in the tree of a stream -/

/-- The bytes of a node are those of two tokens. -/
theorem exists_offsets_of_node {source : Text} (hs : tokenize source = .ok p) {node : ScopeNode}
    (hnode : (build p).nodes[i]? = some node) :
    ∃ b c, b < p.size ∧ c < p.size ∧ node.start = p.offset b ∧ node.stop = p.offset c := by
  have hrange : (build p).ranges[i]? = some node.range := by rw [getElem?_ranges, hnode]; rfl
  rw [getElem?_ranges_build] at hrange
  obtain ⟨a, ha, hrange⟩ := Option.map_eq_some_iff.1 hrange
  have hspec := Namespace.spec_of_mem (List.mem_of_getElem? ha)
  exact ⟨a.brace, a.close, TokenStream.lt_size_of_isPunct hspec.isPunct_brace,
    TokenStream.lt_size_of_isPunct (hspec.isPunct_close hs), congrArg ScopeRange.start hrange.symm,
    congrArg ScopeRange.stop hrange.symm⟩

/-- Every byte has a chain of parents. -/
theorem exists_path (s : TokenStream) (offset : Nat) :
    ∃ path, ParentPath (build s).nodes path ∧ path.head? = (build s).innermost offset := by
  cases h : (build s).innermost offset with
  | none => exact ⟨[], .nil, rfl⟩
  | some i =>
      obtain ⟨n, outer, -, -, haround, -⟩ := exists_around_innermost h
      exact ⟨i :: outer, haround.path, rfl⟩

/-- The tokens of both parts have the qualifiers that they have by themselves. -/
theorem sameScopes_join {a b : TokenStream} {source source₁ source₂ : Text}
    (hs : tokenize source = .ok s) (ha : tokenize source₁ = .ok a) (hb : tokenize source₂ = .ok b)
    (hleft : PartOf a s 0 0) (hright : PartOf b s a.size k) (hsize : s.size = a.size + b.size) :
    PartOf.SameScopes a s 0 (build a) (build s) ∧
      PartOf.SameScopes b s a.size (build b) (build s) := by
  have hnodes := nodes_build_join hleft hright hsize
  have hfirst : ∀ j, j < (build a).nodes.size → (build s).nodes[j]? = (build a).nodes[j]? := by
    intro j hj
    rw [hnodes, Array.getElem?_append_left hj]
  have hsecond : ∀ j, (build s).nodes[(build a).nodes.size + j]? =
      ((build b).nodes[j]?).map (ScopeNode.shift (build a).nodes.size k) := by
    intro j
    rw [hnodes, Array.getElem?_append_right (Nat.le_add_right _ _), Nat.add_sub_cancel_left,
      Array.getElem?_map]
  -- The bytes of the first part stand before those of the second.
  have hapart : ∀ i j, i < a.size → j < b.size → 0 + a.offset i < k + b.offset j := by
    intro i j hi hj
    rw [← hleft.offset_eq hi, ← hright.offset_eq hj]
    exact TokenStream.offset_lt hs (by omega) (by omega)
  constructor
  · intro i hi
    have hpart : TreePart (build a) (build s) 0 0 (a.offset i) := by
      refine ⟨fun j node hnode => ?_, fun j node hnode hcontains => ⟨j, (Nat.zero_add j).symm, ?_⟩⟩
      · rw [Nat.zero_add, node.shift_zero, hfirst j (Array.getElem?_eq_some_iff.1 hnode).1, hnode]
      · by_contra hge
        obtain ⟨d, rfl⟩ := Nat.exists_eq_add_of_le (Nat.not_lt.1 hge)
        rw [hsecond] at hnode
        obtain ⟨node', hnode', rfl⟩ := Option.map_eq_some_iff.1 hnode
        obtain ⟨x, -, hx, -, hstart, -⟩ := exists_offsets_of_node hb hnode'
        have hle : k + node'.start ≤ 0 + a.offset i := (contains_iff.1 hcontains).1
        have := hapart i x hi hx
        omega
    obtain ⟨path, hpath, hhead⟩ := exists_path a (a.offset i)
    rw [hleft.offset_eq hi]
    exact hpart.qualifierAt_eq hpath hhead
  · intro i hi
    have hpart : TreePart (build b) (build s) (build a).nodes.size k (b.offset i) := by
      refine ⟨fun j node hnode => by rw [hsecond, hnode]; rfl, fun j node hnode hcontains => ?_⟩
      rcases Nat.lt_or_ge j (build a).nodes.size with hj | hge
      · rw [hfirst j hj] at hnode
        obtain ⟨-, x, -, hx, -, hstop⟩ := exists_offsets_of_node ha hnode
        have hle : k + b.offset i ≤ node.stop := (contains_iff.1 hcontains).2
        have := hapart x i hx hi
        omega
      · obtain ⟨d, rfl⟩ := Nat.exists_eq_add_of_le hge
        rw [hsecond] at hnode
        obtain ⟨node', hnode', -⟩ := Option.map_eq_some_iff.1 hnode
        exact ⟨d, rfl, (Array.getElem?_eq_some_iff.1 hnode').1⟩
    obtain ⟨path, hpath, hhead⟩ := exists_path b (b.offset i)
    rw [hright.offset_eq hi]
    exact hpart.qualifierAt_eq hpath hhead

end ScopeTree

end HeaderReflection
