/-
  HeaderReflection.Proofs.NestedScopes

  How the namespaces of a header lie in one another. Of two namespaces the later
  one opens where the earlier one does or behind it, and it either closes inside
  of it or opens behind its end, wherever the keywords stand. So the namespaces
  that hold a byte lie in one another in the order of their keywords, and the
  last of them, with which the walk to a qualifier begins, is the innermost.
-/
import HeaderReflection.Proofs.Qualifier
import Mathlib.Data.List.Pairwise

namespace HeaderReflection

/-! ## Ranges that are nested or apart -/

namespace ScopeRange

/-- The range is a part of the other one. -/
def Inside (r r' : ScopeRange) : Prop :=
  r'.start ≤ r.start ∧ r.stop ≤ r'.stop

/-- One of the ranges ends before the other starts. -/
def Apart (r r' : ScopeRange) : Prop :=
  r.stop < r'.start ∨ r'.stop < r.start

variable {r r' : ScopeRange} {offset : Nat}

theorem Inside.refl (r : ScopeRange) : r.Inside r :=
  ⟨Nat.le_refl _, Nat.le_refl _⟩

/-- One of the ranges is a part of the other, or they are apart. -/
def NestedOrApart (r r' : ScopeRange) : Prop :=
  r.Inside r' ∨ r'.Inside r ∨ r.Apart r'

instance : Std.Symm NestedOrApart where
  symm r r' h := by
    rcases h with h | h | h
    · exact .inr (.inl h)
    · exact .inl h
    · exact .inr (.inr (Or.symm h))

/-- Ranges that are apart have no byte in common. -/
theorem Apart.contains_eq_false (h : r.Apart r') (hr : r.contains offset) :
    r'.contains offset = false := by
  by_contra hr'
  simp only [contains, Bool.not_eq_false, Bool.and_eq_true, decide_eq_true_eq] at hr hr'
  rcases h with h | h
  · omega
  · omega

end ScopeRange

variable {source : Text} {s : TokenStream} {m n : Namespace} {offset i : Nat}

/-! ## Two namespaces -/

namespace Namespace.Spec

/-- Of two namespaces the later one closes inside of the earlier one, or opens behind its end. -/
theorem close_le_or_behind (hs : tokenize source = .ok s) (hm : m.Spec s) (hn : n.Spec s)
    (hlt : m.keyword < n.keyword) : n.close ≤ m.close ∨ m.close < n.brace := by
  rcases hm.shares_or_behind hn hlt with ⟨-, hclose⟩ | hbehind
  · exact .inl (Nat.le_of_eq hclose)
  · -- The brace is found behind the keyword, so it is another one, and pairs of braces are laminar.
    have hkeyword := hn.keyword_lt
    rcases TokenStream.closer_laminar hs hm.close hn.close (by omega) with hapart | hinside
    · exact .inr hapart
    · exact .inl (Nat.le_of_lt hinside)

end Namespace.Spec

namespace ScopeTree

/-- A later range starts where an earlier one does or behind it, and is a part of it or apart from
it. -/
theorem pairwise_ranges (hs : tokenize source = .ok s) :
    (build s).ranges.Pairwise fun r r' => r.start ≤ r'.start ∧ (r'.Inside r ∨ r.Apart r') := by
  rw [ranges_build, List.pairwise_map]
  refine Namespace.all_sorted.imp_of_mem fun {m n} hm hn hlt => ?_
  have hm := Namespace.spec_of_mem hm
  have hn := Namespace.spec_of_mem hn
  have hmc : m.close < s.size := TokenStream.lt_size_of_isPunct (hm.isPunct_close hs)
  have hnb : n.brace < s.size := TokenStream.lt_size_of_isPunct hn.isPunct_brace
  have hstart : s.offset m.brace ≤ s.offset n.brace :=
    TokenStream.offset_le hs (hm.brace_le hn hlt) hnb
  refine ⟨hstart, ?_⟩
  rcases hm.close_le_or_behind hs hn hlt with hclose | hbehind
  · exact .inl ⟨hstart, TokenStream.offset_le hs hclose hmc⟩
  · exact .inr (.inl (TokenStream.offset_lt hs hbehind hnb))

/-- Any two ranges are nested or apart. -/
theorem nestedOrApart (hs : tokenize source = .ok s) {r r' : ScopeRange}
    (hr : r ∈ (build s).ranges) (hr' : r' ∈ (build s).ranges) : r.NestedOrApart r' := by
  have hall : (build s).ranges.Pairwise ScopeRange.NestedOrApart :=
    (pairwise_ranges hs).imp fun h => .inr h.2
  exact hall.forall_of_forall (fun r _ => .inl (.refl r)) hr hr'

/-- Of the ranges that hold a byte each later one is a part of each earlier one. -/
theorem pairwise_containing (hs : tokenize source = .ok s) (offset : Nat) :
    ((build s).ranges.filter (·.contains offset)).Pairwise fun r r' => r'.Inside r := by
  refine ((pairwise_ranges hs).filter _).imp_of_mem fun {r r'} hr hr' h => ?_
  rcases h.2 with hinside | hapart
  · exact hinside
  · have hfalse := hapart.contains_eq_false (List.mem_filter.1 hr).2
    simp [(List.mem_filter.1 hr').2] at hfalse

/-! ## The namespaces around a byte -/

/-- The walk to a qualifier begins with the last of the ranges that hold the byte. -/
theorem bind_innermost (t : ScopeTree) (offset : Nat) :
    (t.innermost offset).bind (t.ranges[·]?) = (t.ranges.filter (·.contains offset)).getLast? := by
  cases h : t.innermost offset with
  | none =>
      have hnone : t.ranges.filter (·.contains offset) = [] := by
        apply List.filter_eq_nil_iff.2
        intro r hr
        simp [innermost_eq_none h r hr]
      rw [hnone]
      rfl
  | some i =>
      obtain ⟨⟨r, hr, hcontains⟩, hlast⟩ := innermost_eq_some h
      obtain ⟨front, back, hsplit, rfl⟩ := exists_append_of_getElem? hr
      -- No range behind it holds the byte.
      have hback : back.filter (·.contains offset) = [] := by
        apply List.filter_eq_nil_iff.2
        intro r' hr' hcontains'
        obtain ⟨j, hj⟩ := List.mem_iff_getElem?.1 hr'
        have hat : t.ranges[front.length + 1 + j]? = some r' := by
          rw [hsplit, List.getElem?_append_right (by omega),
            show front.length + 1 + j - front.length = j + 1 by omega, List.getElem?_cons_succ, hj]
        have := hlast _ r' hat hcontains'
        omega
      have hfilter : t.ranges.filter (·.contains offset) =
          front.filter (·.contains offset) ++ [r] := by
        rw [hsplit, List.filter_append, List.filter_cons, if_pos hcontains, hback]
      rw [Option.bind_some, hr, hfilter, List.getLast?_concat]

/-- The namespaces of a header start in the order of their keywords, and any two of them are nested or
apart. Those that hold a byte lie in one another, each later one in each earlier one; so the last one
of them, with which the walk to the qualifier of the byte begins, is a part of all the others. -/
theorem ranges_nest (hs : tokenize source = .ok s) :
    (build s).ranges.Pairwise (fun r r' => r.start ≤ r'.start) ∧
    (∀ r ∈ (build s).ranges, ∀ r' ∈ (build s).ranges, r.NestedOrApart r') ∧
    ∀ offset,
      ((build s).ranges.filter (·.contains offset)).Pairwise (fun r r' => r'.Inside r) ∧
      ((build s).innermost offset).bind ((build s).ranges[·]?) =
        ((build s).ranges.filter (·.contains offset)).getLast? ∧
      ∀ i, (build s).innermost offset = some i → ∃ r, (build s).ranges[i]? = some r ∧
        r.contains offset ∧ ∀ r' ∈ (build s).ranges, r'.contains offset → r.Inside r' := by
  refine ⟨(pairwise_ranges hs).imp fun h => h.1, fun r hr r' hr' => nestedOrApart hs hr hr',
    fun offset => ⟨pairwise_containing hs offset, bind_innermost _ offset, fun i hi => ?_⟩⟩
  obtain ⟨⟨r, hr, hcontains⟩, hlast⟩ := innermost_eq_some hi
  refine ⟨r, hr, hcontains, fun r' hr' hcontains' => ?_⟩
  -- A range that holds the byte is this one or stands before it, and then the two are not apart.
  obtain ⟨j, hj⟩ := List.mem_iff_getElem?.1 hr'
  rcases Nat.eq_or_lt_of_le (hlast j r' hj hcontains') with rfl | hji
  · obtain rfl := Option.some.inj (hr.symm.trans hj)
    exact .refl r
  · obtain ⟨hisize, rfl⟩ := List.getElem?_eq_some_iff.1 hr
    obtain ⟨hjsize, rfl⟩ := List.getElem?_eq_some_iff.1 hj
    have hpair := List.pairwise_iff_getElem.1 (pairwise_ranges hs) j i hjsize hisize hji
    rcases hpair.2 with hinside | hapart
    · exact hinside
    · have := hapart.contains_eq_false hcontains'
      simp [hcontains] at this

/-- The head of the first `C` reaches out of the body of `B`, and two keywords share the body of
`D`. -/
def crossedNamespaces : Text :=
  "namespace A\x7bnamespace B\x7bnamespace C\x7d\x7bx\x7d\x7dnamespace namespace D\x7b\x7d".toList

theorem ranges_nest_crossed :
    ∃ s, tokenize crossedNamespaces = .ok s ∧
      (build s).ranges.map (fun r => (r.start, r.stop)) =
        [(11, 39), (23, 35), (36, 38), (61, 62), (61, 62)] ∧
      (build s).ranges.Pairwise (fun r r' => r.start ≤ r'.start) ∧
      (build s).innermost 37 = some 2 ∧
      ∃ r, (build s).ranges[2]? = some r ∧ r.contains 37 ∧
        ∀ r' ∈ (build s).ranges, r'.contains 37 → r.Inside r' := by
  have hrun : (tokenize crossedNamespaces >>= fun s =>
      Except.ok ((build s).ranges.map (fun r => (r.start, r.stop)), (build s).innermost 37)) =
        .ok ([(11, 39), (23, 35), (36, 38), (61, 62), (61, 62)], some 2) := by
    decide +kernel
  obtain ⟨s, hs, hfacts⟩ := bind_eq_ok.1 hrun
  simp only [Except.ok.injEq, Prod.mk.injEq] at hfacts
  obtain ⟨hranges, hinnermost⟩ := hfacts
  obtain ⟨hstarts, -, hall⟩ := ranges_nest hs
  exact ⟨s, hs, hranges, hstarts, hinnermost, (hall 37).2.2 2 hinnermost⟩

end ScopeTree

end HeaderReflection
