/-
  HeaderReflection.Proofs.ClosedBodies

  No brace of a token stream is without a closing one, so nothing that reads
  the stream ever misses one: the scope tree leaves out no namespace for it,
  and no reading of a declaration fails for it.
-/
import HeaderReflection.Proofs.BraceMatching
import HeaderReflection.Proofs.ErrorOffsets
import HeaderReflection.Proofs.ScopeTree
import Mathlib.Data.List.Forall2

namespace HeaderReflection

variable {source : Text} {s : TokenStream} {scopes : ScopeTree} {b k : Nat} {node : ScopeNode}

/-! ## Namespaces with a body -/

/-- The first opening brace behind index `k` is at `b`, and no semicolon stands before it. -/
structure TokenStream.OpensAt (s : TokenStream) (k b : Nat) : Prop where
  lt : k < b
  brace : s.isPunct b '{'
  clear : ∀ j, k < j → j < b → s.isPunct j ';' = false
  first : ∀ j, k < j → j < b → s.isPunct j '{' = false

namespace ScopeTree

/-- The token at index `k` is the keyword of a namespace, and some opening brace follows it without
a semicolon between them. -/
def HasBody (s : TokenStream) (k : Nat) : Prop :=
  s.isIdent k "namespace".toList ∧
    ∃ b, k < b ∧ s.isPunct b '{' ∧ ∀ j, k < j → j < b → s.isPunct j ';' = false

/-- The node begins at the brace that opens the body behind index `k`, and ends at the one that makes
a pair with it. -/
def IsBody (source : Text) (s : TokenStream) (k : Nat) (node : ScopeNode) : Prop :=
  ∃ b c, s.OpensAt k b ∧ IsPair (Token.kinds source) b c ∧
    node.start = s.offset b ∧ node.stop = s.offset c

theorem bodyBrace_eq_some_iff : bodyBrace s k = some b ↔ s.OpensAt k b := by
  rw [Namespace.bodyBrace_eq_some]
  constructor
  · rintro ⟨hlt, hbrace, hall⟩
    exact ⟨hlt, hbrace, fun j hk hb => (hall j hk hb).1, fun j hk hb => (hall j hk hb).2⟩
  · intro h
    exact ⟨h.lt, h.brace, fun j hk hb => ⟨h.clear j hk hb, h.first j hk hb⟩⟩

/-- Of the braces before the next semicolon one is the first. -/
theorem exists_opensAt (h : HasBody s k) : ∃ b, s.OpensAt k b := by
  obtain ⟨-, b, hlt, hbrace, hclear⟩ := h
  obtain ⟨m, hfind, hmb⟩ := TokenStream.exists_findPunct_le hbrace (Nat.succ_le_of_lt hlt)
    (Nat.lt_succ_self b)
  obtain ⟨⟨hkm, -⟩, hm, hfirst⟩ := TokenStream.findPunct_eq_some.1 hfind
  exact ⟨m, hkm, hm, fun j hk hj => hclear j hk (by omega), fun j hk hj => hfirst j hk hj⟩

/-- A keyword has its namespace in the list if a body follows it: the body is always closed. -/
theorem mem_keywords_iff (h : tokenize source = .ok s) :
    k ∈ (Namespace.all s).map (·.keyword) ↔ HasBody s k := by
  rw [List.mem_map]
  constructor
  · rintro ⟨n, hn, rfl⟩
    have hspec := Namespace.spec_of_mem hn
    have hopens := bodyBrace_eq_some_iff.1 hspec.brace
    exact ⟨hspec.is_keyword, n.brace, hopens.lt, hopens.brace, hopens.clear⟩
  · intro hbody
    obtain ⟨b, hopens⟩ := exists_opensAt hbody
    obtain ⟨c, hclose⟩ := TokenStream.exists_closer h hopens.brace
    have hspec : Namespace.Spec s ⟨k, b, c⟩ :=
      ⟨hbody.1, bodyBrace_eq_some_iff.2 hopens, hclose⟩
    exact ⟨⟨k, b, c⟩, Namespace.mem_all_of_spec hspec, rfl⟩

/-- The nodes are the bodies of the namespaces, one for each and in their order. -/
theorem forall₂_isBody (h : tokenize source = .ok s) :
    List.Forall₂ (IsBody source s) ((Namespace.all s).map (·.keyword)) (build s).nodes.toList := by
  have hranges : List.Forall₂ (fun n node => n.range s = node.range) (Namespace.all s)
      (build s).nodes.toList := by
    have heq : List.Forall₂ (· = ·) ((Namespace.all s).map (·.range s))
        ((build s).nodes.toList.map (·.range)) := by
      rw [List.forall₂_eq_eq_eq]
      exact (ranges_build s).symm
    rwa [List.forall₂_map_left_iff, List.forall₂_map_right_iff] at heq
  have hboth := (List.forall₂_and_left (Namespace.all s) _).2
    ⟨fun n hn => Namespace.spec_of_mem hn, hranges⟩
  rw [List.forall₂_map_left_iff]
  apply hboth.imp
  rintro n node ⟨hspec, hrange⟩
  refine ⟨n.brace, n.close, bodyBrace_eq_some_iff.1 hspec.brace,
    (closer_eq_some_iff h).1 hspec.close, ?_, ?_⟩
  · exact (congrArg ScopeRange.start hrange).symm
  · exact (congrArg ScopeRange.stop hrange).symm

end ScopeTree

/-! ## Errors that do not arise -/

/-- The result is no error about a brace or a comment without its end. -/
def NeverUnpaired {α : Type} (r : Except ParseError α) : Prop :=
  ∀ n, r ≠ .error (.unterminatedScope n) ∧ r ≠ .error (.unmatchedClose n) ∧
    r ≠ .error (.unterminatedComment n)

/-- Of what a declaration can fail for, only the missing brace is about a pair, and no brace is
missing. -/
theorem neverUnpaired_of_faults {α : Type} {r : Except ParseError α} (h : tokenize source = .ok s)
    (hfaults : ∀ e, r = .error e → s.Faults e) : NeverUnpaired r := by
  refine fun n => ⟨fun hr => ?_, fun hr => ?_, fun hr => ?_⟩
  · cases hfaults _ hr with
    | scope ho hclose =>
      obtain ⟨c, hc⟩ := TokenStream.exists_closer h ho
      rw [hclose] at hc
      simp at hc
  · cases hfaults _ hr
  · cases hfaults _ hr

/-- No text with a token stream reaches what is done where a closing brace is missing: the scope tree
has the body of every namespace, with both its braces, and the extraction of structs, of enums and of
both fails for other reasons only. -/
theorem missing_closers_unreachable (h : tokenize source = .ok s) :
    (∃ keywords : List Nat, keywords.Pairwise (· < ·) ∧
      (∀ k, k ∈ keywords ↔ ScopeTree.HasBody s k) ∧
      List.Forall₂ (ScopeTree.IsBody source s) keywords (ScopeTree.build s).nodes.toList) ∧
    ∀ scopes, NeverUnpaired (extractStructs s scopes) ∧ NeverUnpaired (extractEnums s scopes) ∧
      NeverUnpaired (extract s scopes) := by
  refine ⟨⟨(Namespace.all s).map (·.keyword), ?_, fun k => ?_, ?_⟩, fun scopes => ⟨?_, ?_, ?_⟩⟩
  · rw [List.pairwise_map]
    exact Namespace.all_sorted
  · exact ScopeTree.mem_keywords_iff h
  · exact ScopeTree.forall₂_isBody h
  · apply neverUnpaired_of_faults h
    intro e he
    obtain ⟨m, hm, he⟩ := exists_of_collect_eq_error he
    exact faults_of_readStruct hm he
  · apply neverUnpaired_of_faults h
    intro e he
    obtain ⟨m, hm, he⟩ := exists_of_collect_eq_error he
    exact faults_of_readEnum hm he
  · exact neverUnpaired_of_faults h fun e he => faults_of_extract he

/-- A keyword before a semicolon has no body, and a struct without one is not read. -/
theorem missing_closers_unreachable_unread :
    ∃ s, tokenize "namespace A\x7bnamespace B;x\x7b\x7d\x7dREFLECT_STRUCT struct C;".toList = .ok s ∧
      (ScopeTree.build s).nodes.toList.map (fun node => (node.start, node.stop)) = [(11, 27)] ∧
      extractStructs s (ScopeTree.build s) = .error (.missingBody .struct 28) ∧
      (∃ keywords : List Nat, keywords.length = 1 ∧ ∀ k, k ∈ keywords ↔ ScopeTree.HasBody s k) ∧
      NeverUnpaired (extractStructs s (ScopeTree.build s)) := by
  have hrun : (tokenize "namespace A\x7bnamespace B;x\x7b\x7d\x7dREFLECT_STRUCT struct C;".toList >>=
      fun s => Except.ok ((ScopeTree.build s).nodes.toList.map (fun node => (node.start, node.stop)),
        extractStructs s (ScopeTree.build s))) =
      .ok ([(11, 27)], .error (.missingBody .struct 28)) := by
    decide +kernel
  obtain ⟨s, hs, hfacts⟩ := bind_eq_ok.1 hrun
  simp only [Except.ok.injEq, Prod.mk.injEq] at hfacts
  obtain ⟨hnodes, hstructs⟩ := hfacts
  obtain ⟨⟨keywords, -, hkeywords, hall⟩, hnever⟩ := missing_closers_unreachable hs
  refine ⟨s, hs, hnodes, hstructs, ⟨keywords, ?_, hkeywords⟩, (hnever _).1⟩
  rw [hall.length_eq]
  simpa using congrArg List.length hnodes

end HeaderReflection
