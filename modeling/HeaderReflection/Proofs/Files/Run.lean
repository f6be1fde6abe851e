/-
  HeaderReflection.Proofs.Files.Run

  A run over many headers. No companion of the run stands where a header is
  read or on the way to one, so each header's companion comes out as if it were
  the only one, in whatever order the headers are taken.
-/
import HeaderReflection.Proofs.Files.Site

namespace HeaderReflection

open FileTree

variable {s t t' : FileTree} {c : Config} {input h : Path} {q : Place} {way : List Place}
variable {source : Place → ByteArray} {hs order : List Path} {outcomes : List Outcome} {o : Outcome}
variable {dest : Path → Place} {outcome : Path → Outcome} {value : Path → Option Entry}

/-! ## Many entries -/

namespace FileTree

/-- The tree with the given entry at the place of each header, one after the other. -/
def putAll (t : FileTree) (dest : Path → Place) (value : Path → Option Entry) (hs : List Path) :
    FileTree :=
  hs.foldl (fun t h => t.put (dest h) (value h)) t

@[simp] theorem workDir_putAll : (t.putAll dest value hs).workDir = t.workDir := by
  induction hs generalizing t with
  | nil => rfl
  | cons h hs ih => exact ih.trans workDir_put

/-- Nothing changes at any other place. -/
theorem getElem?_putAll_of_ne (hq : ∀ h ∈ hs, dest h ≠ q) :
    (t.putAll dest value hs).entries[q]? = t.entries[q]? := by
  induction hs generalizing t with
  | nil => rfl
  | cons h hs ih =>
      obtain ⟨hne, hrest⟩ := List.forall_mem_cons.1 hq
      refine (ih hrest).trans ?_
      rw [getElem?_put, if_neg hne]

/-- The entries come to stand at the places, if those that go to the same place are the same. -/
theorem getElem?_putAll (hsame : ∀ h ∈ hs, ∀ h' ∈ hs, dest h = dest h' → value h = value h')
    (hmem : h ∈ hs) : (t.putAll dest value hs).entries[dest h]? = value h := by
  induction hs generalizing t h with
  | nil => simp at hmem
  | cons g hs ih =>
      have hrest : ∀ h ∈ hs, ∀ h' ∈ hs, dest h = dest h' → value h = value h' :=
        fun h hh h' hh' => hsame h (List.mem_cons_of_mem _ hh) h' (List.mem_cons_of_mem _ hh')
      by_cases hlater : ∃ h' ∈ hs, dest h' = dest h
      · obtain ⟨h', hh', hdest⟩ := hlater
        have hvalue := hsame h' (List.mem_cons_of_mem _ hh') h hmem hdest
        rw [← hdest, ← hvalue]
        exact ih hrest hh'
      · -- It is put there now, and not again.
        have hlast : ∀ h' ∈ hs, dest h' ≠ dest h := fun h' hh' hdest => hlater ⟨h', hh', hdest⟩
        obtain rfl : h = g := (List.mem_cons.1 hmem).resolve_right fun hh => hlast h hh rfl
        refine (getElem?_putAll_of_ne hlast).trans ?_
        rw [getElem?_put, if_pos rfl]

/-- The order makes no difference. -/
theorem putAll_perm (hsame : ∀ h ∈ hs, ∀ h' ∈ hs, dest h = dest h' → value h = value h')
    (hperm : order.Perm hs) : t.putAll dest value order = t.putAll dest value hs := by
  refine ext_entries (by simp) fun q => ?_
  by_cases hq : ∃ h ∈ hs, dest h = q
  · obtain ⟨h, hmem, rfl⟩ := hq
    rw [getElem?_putAll hsame hmem, getElem?_putAll _ (hperm.mem_iff.2 hmem)]
    exact fun h hh h' hh' => hsame h (hperm.mem_iff.1 hh) h' (hperm.mem_iff.1 hh')
  · have hne : ∀ h ∈ hs, dest h ≠ q := fun h hh hdest => hq ⟨h, hh, hdest⟩
    rw [getElem?_putAll_of_ne hne, getElem?_putAll_of_ne fun h hh => hne h (hperm.mem_iff.1 hh)]

/-- Once they stand there, nothing changes any more. -/
theorem putAll_putAll (hsame : ∀ h ∈ hs, ∀ h' ∈ hs, dest h = dest h' → value h = value h') :
    (t.putAll dest value hs).putAll dest value hs = t.putAll dest value hs := by
  refine ext_entries (by simp) fun q => ?_
  by_cases hq : ∃ h ∈ hs, dest h = q
  · obtain ⟨h, hmem, rfl⟩ := hq
    rw [getElem?_putAll hsame hmem, getElem?_putAll hsame hmem]
  · exact getElem?_putAll_of_ne fun h hh hdest => hq ⟨h, hh, hdest⟩

end FileTree

/-! ## What a run keeps -/

/-- Does a run keep what stands at the place? It does if the place is on the way to the root, if it
is a directory's, or if it has a header's name. -/
def IsKept (t : FileTree) (c : Config) (way : List Place) (q : Place) : Prop :=
  q ∈ way ∨ t.entry? q = some .dir ∨ ∃ e name, q = e ++ [name] ∧ c.isInputName name = true

/-- The tree `s` has kept what a run from the tree `t` keeps, and has no more directories. -/
structure Keeps (t : FileTree) (c : Config) (way : List Place) (s : FileTree) : Prop where
  workDir : s.workDir = t.workDir
  entry : ∀ q, IsKept t c way q → s.entry? q = t.entry? q
  dir : ∀ q, s.entry? q = some .dir → t.entry? q = some .dir

namespace Keeps

theorem refl : Keeps t c way t :=
  ⟨rfl, fun _ _ => rfl, fun _ => id⟩

theorem put (h : Keeps t c way s) {e : Option Entry} (hq : ¬ IsKept t c way q)
    (he : e ≠ some .dir) : Keeps t c way (s.put q e) := by
  have hne : q ≠ [] := by
    rintro rfl
    exact hq (.inr (.inl rfl))
  refine ⟨workDir_put.trans h.workDir, fun p hp => ?_, fun p hp => ?_⟩
  · rw [entry?_put_of_ne (by rintro rfl; exact hq hp), h.entry p hp]
  · by_cases hpq : q = p
    · subst hpq
      rw [entry?_put_self hne] at hp
      exact absurd hp he
    · exact h.dir p (by rwa [entry?_put_of_ne hpq] at hp)

theorem sameAt (h : Keeps t c way s) {places : List Place} (hkept : ∀ q ∈ places, IsKept t c way q) :
    SameAt s t places :=
  ⟨h.workDir, fun q hq => h.entry q (hkept q hq)⟩

end Keeps

/-! ## One header of a run -/

/-- A header of a run from the tree `t`: its site, if it has a companion, is on the way from the root
and keeps apart from companions, and has the contents that the companion's place tells. -/
def IsSited (t : FileTree) (c : Config) (way : List Place) (source : Place → ByteArray)
    (h : Path) : Prop :=
  ∀ output, c.companionPath? h = some output → ∃ trail place contents d stem,
    Site t c h output trail place contents d (stem ++ c.companionEnding) ∧ way ⊆ trail ∧
      (∀ q ∈ trail, IsKept t c way q) ∧ source (d ++ [stem ++ c.companionEnding]) = contents

/-- The entry of the companion of a header with the given contents. -/
def companionOf (c : Config) (contents : ByteArray) : Option Entry :=
  match (Text.decode? contents).map extractSource with
  | some (.ok x) => companionEntry c x
  | _ => none

theorem companionOf_ne_dir {contents : ByteArray} : companionOf c contents ≠ some .dir := by
  rw [companionOf]
  split
  · exact companionEntry_ne_dir
  · simp

/-- The companion of a header comes out the same in every tree that has kept what the run keeps, and
its place is none of those. -/
structure IsSteady (t : FileTree) (c : Config) (way : List Place) (source : Place → ByteArray)
    (h : Path) (dest : Place) (o : Outcome) : Prop where
  located : ∃ output, c.companionPath? h = some output ∧ t.locate false output = .ok dest
  named : ∃ d stem, dest = d ++ [stem ++ c.companionEnding]
  preview : ∃ text?, previewFile t c h = .ok text? ∧
    companionOf c (source dest) = text?.map fun text => .file (Text.encode text)
  not_kept : ¬ IsKept t c way dest
  generate : ∀ s, Keeps t c way s →
    generateFile s c h = (.ok o, s.put dest (companionOf c (source dest)))

/-- A header whose companion has once been generated in the run is steady. -/
theorem IsSited.exists_isSteady (hsited : IsSited t c way source h) (hkeeps : Keeps t c way s)
    (hok : (generateFile s c h).1 = .ok o) : ∃ dest, IsSteady t c way source h dest o := by
  obtain ⟨output, hcompanion⟩ : ∃ output, c.companionPath? h = some output := by
    cases hcompanion : c.companionPath? h with
    | none => simp [generateFile, hcompanion] at hok
    | some output => exact ⟨output, rfl⟩
  obtain ⟨trail, place, contents, d, stem, hsite, hway, htrail, hsource⟩ := hsited output hcompanion
  generalize hm : stem ++ c.companionEnding = m at hsite hsource
  obtain ⟨hdir, x, hx⟩ := hsite.settled (hkeeps.sameAt htrail) hok
  obtain ⟨raw, hraw, hextract⟩ := hx.read
  have hvalue : companionOf c (source (d ++ [m])) = companionEntry c x := by
    simp [companionOf, hsource, hraw, hextract]
  have hsame : SameAt t t trail := ⟨rfl, fun _ _ => rfl⟩
  -- No companion stands where a run changes nothing.
  have hnot : ¬ IsKept t c way (d ++ [m]) := by
    rintro (hmem | hdir' | ⟨e, name, hname, hinput⟩)
    · exact hx.free (hway hmem)
    · exact hdir ((hkeeps.entry _ (.inr (.inl hdir'))).trans hdir')
    · obtain ⟨-, hlast⟩ := List.append_inj' hname rfl
      obtain rfl : m = name := by simpa using hlast
      simp [← hm, c.isInputName_companion] at hinput
  have hgenerate : ∀ s, Keeps t c way s → generateFile s c h =
      (.ok (outcomeOf h output x), s.put (d ++ [m]) (companionOf c (source (d ++ [m])))) := by
    intro s hs
    rw [hvalue]
    exact hsite.generateFile_eq hx (hs.sameAt htrail) fun hd => hnot (.inr (.inl (hs.dir _ hd)))
  obtain rfl : outcomeOf h output x = o := by simpa [hgenerate s hkeeps] using hok
  refine ⟨d ++ [m], ⟨output, hcompanion, hsite.locate_output hx.output_open hx.short hsame⟩,
    ⟨d, stem, by rw [hm]⟩, ?_, hnot, hgenerate⟩
  have hread : readExtraction t h = .ok x :=
    readExtraction_eq_ok.2 ⟨contents, raw, hsite.status_input hx.input_open hsame, hraw, hextract⟩
  refine ⟨_, previewFile_eq_ok hcompanion hread, ?_⟩
  rw [hvalue, companionEntry]
  split <;> rfl

/-! ## All headers -/

/-- If all headers are steady, a run over them in any order comes out the same. -/
theorem generateFiles_eq (hsteady : ∀ h ∈ hs, IsSteady t c way source h (dest h) (outcome h))
    (hkeeps : Keeps t c way s) :
    generateFiles s c hs =
        (.ok (hs.map outcome), s.putAll dest (fun h => companionOf c (source (dest h))) hs) ∧
      Keeps t c way (s.putAll dest (fun h => companionOf c (source (dest h))) hs) := by
  induction hs generalizing s with
  | nil => exact ⟨rfl, hkeeps⟩
  | cons h hs ih =>
      obtain ⟨hh, hrest⟩ := List.forall_mem_cons.1 hsteady
      obtain ⟨hrun, hkeeps'⟩ := ih hrest (hkeeps.put hh.not_kept companionOf_ne_dir)
      refine ⟨?_, hkeeps'⟩
      simp only [generateFiles, hh.generate s hkeeps, hrun]
      rfl

/-- A run that goes well goes well for the first header, and then for the others. -/
theorem of_generateFiles_cons (hok : (generateFiles s c (h :: hs)).1 = .ok outcomes) :
    ∃ o rest, (generateFile s c h).1 = .ok o ∧
      (generateFiles (generateFile s c h).2 c hs).1 = .ok rest := by
  rcases hfirst : generateFile s c h with ⟨error | o, s'⟩
  · simp [generateFiles, hfirst] at hok
  · rcases hlater : generateFiles s' c hs with ⟨error | rest, s''⟩
    · simp [generateFiles, hfirst, hlater] at hok
    · exact ⟨o, rest, rfl, rfl⟩

/-- A header that is taken in a run which goes well is steady. -/
theorem exists_isSteady_of_generateFiles (hsited : ∀ h ∈ hs, IsSited t c way source h)
    (hkeeps : Keeps t c way s) (hok : (generateFiles s c hs).1 = .ok outcomes) :
    ∀ h ∈ hs, ∃ dest o, IsSteady t c way source h dest o := by
  induction hs generalizing s outcomes with
  | nil => simp
  | cons h hs ih =>
      obtain ⟨hh, hrest⟩ := List.forall_mem_cons.1 hsited
      obtain ⟨o, rest, hfirst, hlater⟩ := of_generateFiles_cons hok
      obtain ⟨dest, hsteady⟩ := hh.exists_isSteady hkeeps hfirst
      rw [hsteady.generate s hkeeps] at hlater
      refine List.forall_mem_cons.2 ⟨⟨dest, o, hsteady⟩, ih hrest ?_ hlater⟩
      exact hkeeps.put hsteady.not_kept companionOf_ne_dir

end HeaderReflection
