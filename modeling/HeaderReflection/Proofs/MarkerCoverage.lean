/-
  HeaderReflection.Proofs.MarkerCoverage

  An extraction accounts for every marker. Each declaration it reports stands
  for the tokens from its marker up to the brace of its body; these intervals
  follow one another, and every marker of the header lies in exactly one of
  them. A second marker in the head of a declaration belongs to it, and one
  behind the brace starts a declaration of its own.
-/
import HeaderReflection.Proofs.Head

namespace HeaderReflection

/-! ## What a run has found -/

/-- A declaration that has been read, with the indices of its marker and of the brace that opens its
body. -/
structure Found (α : Type) where
  marker : Nat
  body : Nat
  decl : α

/-- Is the token at index `m` in the head of the declaration, its marker included? -/
def Found.Holds {α : Type} (f : Found α) (m : Nat) : Prop :=
  f.marker ≤ m ∧ m < f.body

/-- The declarations account for every `name` from index `pos` on: each of them belongs to the first
one that is left, and the next ones are sought behind the brace of its body. -/
inductive Accounts {α : Type} (s : TokenStream) (name : Text)
    (read : Nat → Except ParseError (α × Nat)) : Nat → List (Found α) → Prop
  /-- No marker is left. -/
  | done {pos : Nat} (none_left : ∀ m, pos ≤ m → s.isIdent m name = false) :
      Accounts s name read pos []
  /-- The first marker that is left belongs to the next declaration. -/
  | next {pos : Nat} {f : Found α} {found : List (Found α)} (le : pos ≤ f.marker)
      (is_marker : s.isIdent f.marker name)
      (first : ∀ m, pos ≤ m → m < f.marker → s.isIdent m name = false)
      (is_read : read f.marker = .ok (f.decl, f.body))
      (opens : DeclHead.OpensBody s f.marker f.body)
      (rest : Accounts s name read (f.body + 1) found) :
      Accounts s name read pos (f :: found)

section Run

variable {α : Type} {s : TokenStream} {name : Text} {read : Nat → Except ParseError (α × Nat)}
variable {pos m : Nat} {ds : List α} {f : Found α} {found : List (Found α)}

/-- A run of the cursor accounts for every marker from its position on. -/
theorem accounts_of_collect
    (hread : ∀ m d o, s.isIdent m name → read m = .ok (d, o) → DeclHead.OpensBody s m o)
    (h : Cursor.collect name (resumeInBody read) ⟨s, pos⟩ = .ok ds) :
    ∃ found, found.map (·.decl) = ds ∧ Accounts s name read pos found := by
  -- Every step takes the cursor forward, so the induction is on what lies before it.
  induction hn : s.size - pos using Nat.strongRecOn generalizing pos ds with
  | ind n ih =>
    cases hfind : s.findIdent pos s.size name with
    | none =>
      rw [Cursor.collect_of_none hfind] at h
      obtain rfl := Except.ok.inj h
      exact ⟨[], rfl, .done (TokenStream.findIdent_size_eq_none.1 hfind)⟩
    | some m =>
      obtain ⟨⟨hpos, hsize⟩, hm, hfirst⟩ := TokenStream.findIdent_eq_some.1 hfind
      rw [Cursor.collect_of_some hfind, bind_eq_ok] at h
      obtain ⟨⟨d, resume⟩, hd, h⟩ := h
      obtain ⟨ds', hds', h⟩ := bind_eq_ok.1 h
      obtain rfl := Except.ok.inj h
      obtain ⟨⟨d', o⟩, hdo, hres⟩ := bind_eq_ok.1 hd
      cases hres
      have hopens := hread m d o hm hdo
      have hmax : max (m + 1) (o + 1) = o + 1 := by have := hopens.lt; omega
      rw [hmax] at hds'
      obtain ⟨found, hfound, hrest⟩ := ih (s.size - (o + 1)) (by have := hopens.lt; omega) hds' rfl
      exact ⟨⟨m, o, d⟩ :: found, by simp [hfound], .next hpos hm hfirst hdo hopens hrest⟩

namespace Accounts

/-- Every declaration belongs to a marker from `pos` on, and its body opens behind that marker. -/
theorem of_mem (h : Accounts s name read pos found) (hf : f ∈ found) :
    pos ≤ f.marker ∧ s.isIdent f.marker name ∧ read f.marker = .ok (f.decl, f.body) ∧
      DeclHead.OpensBody s f.marker f.body := by
  induction h with
  | done => simp at hf
  | @next pos g found hle hm _ hread hopens _ ih =>
      rcases List.mem_cons.1 hf with rfl | hf
      · exact ⟨hle, hm, hread, hopens⟩
      · have hlt := hopens.lt
        obtain ⟨hpos, hrest⟩ := ih hf
        exact ⟨by omega, hrest⟩

/-- A later declaration starts behind the brace of an earlier one. -/
theorem pairwise (h : Accounts s name read pos found) :
    found.Pairwise fun f g => f.body < g.marker := by
  induction h with
  | done => exact List.Pairwise.nil
  | next _ _ _ _ _ hrest ih =>
      refine List.Pairwise.cons (fun g hg => ?_) ih
      exact (hrest.of_mem hg).1

/-- Every marker from `pos` on is in the head of one of the declarations. -/
theorem exists_holds (h : Accounts s name read pos found) (hpos : pos ≤ m)
    (hm : s.isIdent m name) : ∃ f ∈ found, f.Holds m := by
  induction h with
  | done hnone => simp [hnone m hpos] at hm
  | @next pos f found hle _ hfirst _ hopens _ ih =>
      by_cases hlt : m < f.marker
      · simp [hfirst m hpos hlt] at hm
      by_cases hmb : m < f.body
      · exact ⟨f, List.mem_cons_self, by omega, hmb⟩
      have hne : m ≠ f.body := by
        rintro rfl
        have := TokenStream.isPunct_of_isIdent (c := '{') hm
        simp [hopens.brace] at this
      obtain ⟨g, hg, hgm⟩ := ih (by omega)
      exact ⟨g, List.mem_cons_of_mem _ hg, hgm⟩

/-- No token is in the heads of two declarations. -/
theorem holds_unique (h : Accounts s name read pos found) {g : Found α} (hf : f ∈ found)
    (hg : g ∈ found) (hfm : f.Holds m) (hgm : g.Holds m) : f = g := by
  induction h with
  | done => simp at hf
  | @next pos d found _ _ _ _ _ hrest ih =>
      obtain ⟨hf₁, hf₂⟩ := hfm
      obtain ⟨hg₁, hg₂⟩ := hgm
      rcases List.mem_cons.1 hf with rfl | hf'
      · rcases List.mem_cons.1 hg with rfl | hg'
        · rfl
        · have := (hrest.of_mem hg').1
          omega
      · rcases List.mem_cons.1 hg with rfl | hg'
        · have := (hrest.of_mem hf').1
          omega
        · exact ih hf' hg'

end Accounts

end Run

/-! ## Whole extractions -/

variable {s : TokenStream} {scopes : ScopeTree}

/-- The declarations that a run reports, with their places: they are the declarations of markers, in
the order of the header and without overlap, and every marker is in the head of exactly one. -/
structure CoversMarkers {α : Type} (s : TokenStream) (kind : DeclKind)
    (read : Nat → Except ParseError (α × Nat)) (ds : List α) (found : List (Found α)) : Prop where
  decls : found.map (·.decl) = ds
  is_decl : ∀ f ∈ found, s.isIdent f.marker kind.marker ∧ DeclHead.OpensBody s f.marker f.body ∧
    read f.marker = .ok (f.decl, f.body)
  ordered : found.Pairwise fun f g => f.body < g.marker
  holds : ∀ m, s.isIdent m kind.marker → ∃ f ∈ found, f.Holds m ∧ ∀ g ∈ found, g.Holds m → g = f

theorem coversMarkers_of_collect {α : Type} {kind : DeclKind}
    {read : Nat → Except ParseError (α × Nat)} {ds : List α}
    (hread : ∀ m d o, s.isIdent m kind.marker → read m = .ok (d, o) → DeclHead.OpensBody s m o)
    (h : s.cursor.collect kind.marker (resumeInBody read) = .ok ds) :
    ∃ found, CoversMarkers s kind read ds found := by
  obtain ⟨found, hds, hacc⟩ := accounts_of_collect hread h
  refine ⟨found, hds, fun f hf => ?_, hacc.pairwise, fun m hm => ?_⟩
  · obtain ⟨-, hm, hread, hopens⟩ := hacc.of_mem hf
    exact ⟨hm, hopens, hread⟩
  · obtain ⟨f, hf, hfm⟩ := hacc.exists_holds (Nat.zero_le m) hm
    exact ⟨f, hf, hfm, fun g hg hgm => hacc.holds_unique hg hf hgm hfm⟩

namespace CoversMarkers

variable {α : Type} {kind : DeclKind} {read : Nat → Except ParseError (α × Nat)} {ds : List α}
variable {found : List (Found α)}

/-- No body is reported twice. -/
theorem bodies_nodup (h : CoversMarkers s kind read ds found) : (found.map (·.body)).Nodup := by
  refine List.pairwise_map.2 (h.ordered.imp_of_mem fun {f g} _ hg hlt => ?_)
  have := (h.is_decl g hg).2.1.lt
  omega

/-- A marker with no other one before it in its head is that of a reported declaration. -/
theorem exists_decl_of_first (h : CoversMarkers s kind read ds found) {m : Nat}
    (hm : s.isIdent m kind.marker)
    (hfirst : ∀ k, k < m → s.isIdent k kind.marker →
      ∃ e, k < e ∧ e < m ∧ DeclHead.endsHead s e) :
    ∃ d ∈ ds, ∃ o, DeclHead.OpensBody s m o ∧ read m = .ok (d, o) := by
  obtain ⟨f, hf, ⟨hle, hlt⟩, -⟩ := h.holds m hm
  obtain ⟨hfm, hopens, hread⟩ := h.is_decl f hf
  obtain rfl : f.marker = m := by
    by_contra hne
    -- Between two markers of one head nothing could end it.
    obtain ⟨e, hfe, hem, hend⟩ := hfirst f.marker (by omega) hfm
    have := hopens.head e hfe (by omega)
    simp [hend] at this
  exact ⟨f.decl, h.decls ▸ List.mem_map_of_mem hf, f.body, hopens, hread⟩

/-- Nothing is reported just when there is no marker. -/
theorem eq_nil_iff (h : CoversMarkers s kind read ds found) :
    ds = [] ↔ ∀ m, s.isIdent m kind.marker = false := by
  rw [← h.decls, List.map_eq_nil_iff]
  constructor
  · rintro rfl m
    refine Bool.eq_false_iff.2 fun hm => ?_
    obtain ⟨f, hf, -⟩ := h.holds m hm
    simp at hf
  · intro hnone
    refine List.eq_nil_iff_forall_not_mem.2 fun f hf => ?_
    have := (h.is_decl f hf).1
    simp [hnone] at this

end CoversMarkers

/-- Structs and enums alike: an extraction that succeeds reports, without repeating a body, the
declarations of markers whose heads hold every marker of the header exactly once. So it reports
nothing just when there is no marker. -/
theorem extraction_covers_markers (s : TokenStream) (scopes : ScopeTree) :
    (∀ ds, extractStructs s scopes = .ok ds →
      ∃ found, CoversMarkers s .struct (readStruct s scopes) ds found ∧
        (found.map (·.body)).Nodup ∧
        (ds = [] ↔ ∀ m, s.isIdent m DeclKind.struct.marker = false)) ∧
    (∀ es, extractEnums s scopes = .ok es →
      ∃ found, CoversMarkers s .enum (readEnum s scopes) es found ∧
        (found.map (·.body)).Nodup ∧
        (es = [] ↔ ∀ m, s.isIdent m DeclKind.enum.marker = false)) ∧
    ∀ e, extract s scopes = .ok e →
      (e.isEmpty ↔ ∀ kind m, s.isIdent m (DeclKind.marker kind) = false) := by
  have hstructs : ∀ ds, extractStructs s scopes = .ok ds →
      ∃ found, CoversMarkers s .struct (readStruct s scopes) ds found := fun ds h =>
    coversMarkers_of_collect (fun m d o hm hd => opensBody_of_readStruct hm hd) h
  have henums : ∀ es, extractEnums s scopes = .ok es →
      ∃ found, CoversMarkers s .enum (readEnum s scopes) es found := fun es h =>
    coversMarkers_of_collect (fun m d o hm hd => opensBody_of_readEnum hm hd) h
  refine ⟨fun ds h => ?_, fun es h => ?_, fun e h => ?_⟩
  · obtain ⟨found, hfound⟩ := hstructs ds h
    exact ⟨found, hfound, hfound.bodies_nodup, hfound.eq_nil_iff⟩
  · obtain ⟨found, hfound⟩ := henums es h
    exact ⟨found, hfound, hfound.bodies_nodup, hfound.eq_nil_iff⟩
  -- The two lists are read one after the other, so both readings have succeeded.
  · simp only [extract, bind_eq_ok] at h
    obtain ⟨ds, hds, es, hes, h⟩ := h
    cases h
    obtain ⟨_, hds⟩ := hstructs ds hds
    obtain ⟨_, hes⟩ := henums es hes
    simp only [Extraction.isEmpty, Bool.and_eq_true, List.isEmpty_iff, hds.eq_nil_iff,
      hes.eq_nil_iff]
    constructor
    · rintro ⟨hstruct, henum⟩ kind m
      cases kind with
      | struct => exact hstruct m
      | enum => exact henum m
    · intro h
      exact ⟨h .struct, h .enum⟩

/-- A marked struct whose head repeats the marker, with a marked enum in its body. -/
theorem extraction_covers_markers_nested :
    ∃ s, tokenize ("REFLECT_STRUCT struct REFLECT_STRUCT A\x7b" ++
        "enum class REFLECT_ENUM E\x7bX\x7d;\x7d;").toList = .ok s ∧
      (∃ found, CoversMarkers s .struct (readStruct s (ScopeTree.build s))
        [⟨"A".toList, [], []⟩] found) ∧
      (∃ found, CoversMarkers s .enum (readEnum s (ScopeTree.build s))
        [⟨"E".toList, [], ["X".toList]⟩] found) ∧
      ¬ ∀ kind m, s.isIdent m (DeclKind.marker kind) = false := by
  have hrun : (tokenize ("REFLECT_STRUCT struct REFLECT_STRUCT A\x7b" ++
        "enum class REFLECT_ENUM E\x7bX\x7d;\x7d;").toList >>=
      fun s => extract s (ScopeTree.build s)) =
        .ok ⟨[⟨"A".toList, [], []⟩], [⟨"E".toList, [], ["X".toList]⟩]⟩ := by
    decide +kernel
  obtain ⟨s, hs, hextract⟩ := bind_eq_ok.1 hrun
  obtain ⟨hstructs, henums, hempty⟩ := extraction_covers_markers s (ScopeTree.build s)
  have hparts := hextract
  simp only [extract, bind_eq_ok] at hparts
  obtain ⟨ds, hds, es, hes, hparts⟩ := hparts
  cases hparts
  obtain ⟨found, hfound, -⟩ := hstructs _ hds
  obtain ⟨found', hfound', -⟩ := henums _ hes
  refine ⟨s, hs, ⟨found, hfound⟩, ⟨found', hfound'⟩, fun hnone => ?_⟩
  have := (hempty _ hextract).2 hnone
  simp [Extraction.isEmpty] at this

end HeaderReflection
