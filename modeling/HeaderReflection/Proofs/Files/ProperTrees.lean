/-
  HeaderReflection.Proofs.Files.ProperTrees

  The trees that a disk can hold: every entry stands in a directory and is called
  as entries can be, and relative paths start in a directory. A path leads only to
  directories and to places where an entry can stand, so whatever changes a tree
  keeps it proper. What a run does to the tree comes down to files that are written
  and removed one after the other; a run therefore keeps the tree proper, and it
  neither makes nor removes directories.
-/
import HeaderReflection.Proofs.Files.DryRun
import Mathlib.Logic.Relation

namespace HeaderReflection

open FileTree CommandLine HeaderReflection.Path

variable {t t' t₀ : FileTree} {p target : Path} {d here place q : Place} {name : Text}
variable {names : List Text} {seen : List Place} {followLast : Bool} {links : Nat}

namespace FileTree

/-! ## Proper trees -/

/-- Can an entry stand at the place? There is a directory for it, and it can be called so. -/
def IsSpot (t : FileTree) (place : Place) : Prop :=
  ∃ d name, place = d ++ [name] ∧ t.entry? d = some .dir ∧ IsName name ∧
    Text.size name ≤ maxNameSize

/-- Is the tree one that a disk can hold? -/
structure IsProper (t : FileTree) : Prop where
  /-- Every entry stands where one can stand. -/
  spot : ∀ place e, place ≠ [] → t.entries[place]? = some e → t.IsSpot place
  /-- Relative paths start in a directory. -/
  start : t.entry? t.workDir = some .dir

/-- A tree without entries is proper. -/
theorem isProper_empty : IsProper ⟨∅, []⟩ :=
  ⟨fun place e _ he => by simp at he, rfl⟩

namespace IsProper

theorem isSpot (ht : t.IsProper) (hplace : place ≠ []) {e : Entry}
    (he : t.entry? place = some e) : t.IsSpot place :=
  ht.spot place e hplace (by rwa [entry?_eq_of_ne_nil hplace] at he)

/-- What a directory lies in is a directory. -/
theorem dropLast (ht : t.IsProper) (hplace : t.entry? place = some .dir) :
    t.entry? place.dropLast = some .dir := by
  by_cases hnil : place = []
  · simpa [hnil] using hplace
  · obtain ⟨d, name, rfl, hd, -⟩ := ht.isSpot hnil hplace
    rwa [List.dropLast_concat]

/-- The entries of a proper tree are well named, since the directories above them are entries too. -/
theorem wellNamed (ht : t.IsProper) : t.WellNamed := by
  intro place
  induction place using List.reverseRecOn with
  | nil => simp
  | append_singleton place name ih =>
      intro e he
      obtain ⟨d, name', hplace, hdir, hname⟩ := ht.spot _ e (by simp) he
      obtain ⟨rfl, rfl⟩ : place = d ∧ name = name' := by simpa using hplace
      refine List.forall_mem_append.2 ⟨?_, by simpa using hname⟩
      by_cases hd : place = []
      · simp [hd]
      · exact ih .dir (by rwa [entry?_eq_of_ne_nil hd] at hdir)

end IsProper

/-! ## Where paths lead -/

/-- A step of a path is to a dot, or it could be a name. -/
theorem ne_nil_of_mem_steps (h : name ∈ steps p) : name ≠ [] ∧ '/' ∉ name := by
  have hmem : name ∈ p.segments.filter (!·.isEmpty) ∨ name = ['.'] := by
    rw [steps] at h
    split at h
    · simpa using h
    · exact .inl h
  rcases hmem with hmem | rfl
  · obtain ⟨hsegment, hne⟩ := List.mem_filter.1 hmem
    exact ⟨by simpa using hne, slash_not_mem_of_mem_segments hsegment⟩
  · decide

/-- From a directory, names lead to directories and to places where an entry can stand. -/
theorem Follows.dir_or_isSpot (ht : t.IsProper)
    (h : Follows t followLast links here names seen (.ok place))
    (hhere : t.entry? here = some .dir) (hnames : ∀ name ∈ names, name ≠ [] ∧ '/' ∉ name) :
    t.entry? place = some .dir ∨ t.IsSpot place := by
  generalize hresult : Except.ok place = result at h
  induction h with
  | done =>
      obtain rfl := Except.ok.inj hresult
      exact .inl hhere
  | stay _ ih => exact ih hhere (List.forall_mem_cons.1 hnames).2 hresult
  | up _ ih => exact ih (ht.dropLast hhere) (List.forall_mem_cons.1 hnames).2 hresult
  | tooLong => simp at hresult
  | @stop links here name rest result hname hend =>
      -- The place that is looked at lies in the directory, and the name in it was looked up.
      obtain ⟨-, rfl, -⟩ := eq_of_ending?_eq_ok (hresult ▸ hend)
      obtain ⟨hne, hslash⟩ := hnames name (by simp)
      obtain ⟨hdot, hdots, hsize⟩ := hname
      exact .inr ⟨here, name, rfl, hhere, ⟨hne, hslash, hdot, hdots⟩, hsize⟩
  | enter _ hdir _ ih => exact ih hdir (List.forall_mem_cons.1 hnames).2 hresult
  | @follow links here name target rest seen result hname hlink htarget hgo _ ih =>
      refine ih ?_ (List.forall_mem_append.2 ⟨fun _ => ne_nil_of_mem_steps, ?_⟩) hresult
      · split
        · rfl
        · exact hhere
      · exact (List.forall_mem_cons.1 hnames).2

/-- A path leads to directories and to places where an entry can stand. -/
theorem IsProper.dir_or_isSpot_of_locate (ht : t.IsProper)
    (h : t.locate followLast p = .ok place) : t.entry? place = some .dir ∨ t.IsSpot place := by
  rw [locate_of_isOpenable (isOpenable_of_locate h)] at h
  obtain ⟨seen, hfollows⟩ := exists_follows t followLast maxLinks (t.origin p) (steps p)
  rw [h] at hfollows
  have horigin : t.entry? (t.origin p) = some .dir := by
    rw [origin]
    split
    · rfl
    · exact ht.start
  exact hfollows.dir_or_isSpot ht horigin fun _ => ne_nil_of_mem_steps

/-! ## Changes of one entry -/

/-- A proper tree stays proper when something is put where an entry can stand and no directory does,
or is taken away from there. -/
theorem IsProper.put (ht : t.IsProper) (hspot : t.IsSpot place) (hdir : t.entry? place ≠ some .dir)
    (e : Option Entry) : (t.put place e).IsProper := by
  have hkept : ∀ q, t.entry? q = some .dir → entry? (t.put place e) q = some .dir := by
    intro q hq
    rwa [entry?_put_of_ne]
    rintro rfl
    exact hdir hq
  have hspots : ∀ q, t.IsSpot q → (t.put place e).IsSpot q := by
    rintro q ⟨d, name, rfl, hd, hname⟩
    exact ⟨d, name, rfl, hkept d hd, hname⟩
  refine ⟨fun q e' hq he' => hspots q ?_, by rw [workDir_put]; exact hkept _ ht.start⟩
  rw [getElem?_put] at he'
  split at he'
  · next hplace => exact hplace ▸ hspot
  · exact ht.spot q e' hq he'

/-- A proper tree stays proper when what a path leads to changes, if that is no directory. -/
theorem IsProper.put_of_locate (ht : t.IsProper) (h : t.locate followLast p = .ok place)
    (hdir : t.entry? place ≠ some .dir) (e : Option Entry) : (t.put place e).IsProper :=
  ht.put ((ht.dir_or_isSpot_of_locate h).resolve_left hdir) hdir e

theorem IsProper.makeDir (ht : t.IsProper) (h : t.makeDir p = .ok t') : t'.IsProper := by
  cases hlocate : t.locate true p with
  | error e => simp [FileTree.makeDir, hlocate, bind, Except.bind] at h
  | ok place =>
    simp only [FileTree.makeDir, hlocate, bind, Except.bind] at h
    split at h
    · next habsent =>
      obtain rfl := Except.ok.inj h
      exact ht.put_of_locate hlocate (by simp [habsent]) (some .dir)
    · obtain rfl := Except.ok.inj h
      exact ht
    · simp [throw, throwThe, MonadExceptOf.throw] at h

theorem IsProper.makeDirs (ht : t.IsProper) (h : t.makeDirs p = .ok t') : t'.IsProper := by
  rw [FileTree.makeDirs] at h
  generalize pathsTo p = paths at h
  induction paths generalizing t with
  | nil =>
      obtain rfl := Except.ok.inj h
      exact ht
  | cons upTo paths ih =>
      rw [List.foldlM_cons] at h
      cases hfirst : t.makeDir upTo with
      | error e => simp [hfirst, bind, Except.bind] at h
      | ok t₁ =>
        rw [hfirst] at h
        exact ih (ht.makeDir hfirst) h

theorem IsProper.makeLink (ht : t.IsProper) (h : t.makeLink target p = .ok t') : t'.IsProper := by
  cases hlocate : t.locate false p with
  | error e => simp [FileTree.makeLink, hlocate, bind, Except.bind] at h
  | ok place =>
    simp only [FileTree.makeLink, hlocate, bind, Except.bind] at h
    split at h
    · next habsent =>
      obtain rfl := Except.ok.inj h
      exact ht.put_of_locate hlocate (by simp [habsent]) (some (.link target))
    · simp [throw, throwThe, MonadExceptOf.throw] at h

/-- What is erased is gone, and everything else stays. -/
theorem getElem?_foldl_erase (gone : List Place) :
    (gone.foldl erase t).workDir = t.workDir ∧
      ∀ q, (gone.foldl erase t).entries[q]? = if q ∈ gone then none else t.entries[q]? := by
  induction gone generalizing t with
  | nil => simp
  | cons place gone ih =>
      obtain ⟨hstart, hentries⟩ := ih (t := t.put place none)
      refine ⟨hstart, fun q => (hentries q).trans ?_⟩
      rw [getElem?_put]
      rcases eq_or_ne place q with rfl | hq
      · simp
      · simp [hq, hq.symm]

/-- A tree from which everything below a path is removed stays proper, unless the directory went in
which relative paths start. -/
theorem IsProper.removeAll (ht : t.IsProper) (h : t.removeAll p = .ok t')
    (hstart : t'.entry? t'.workDir = some .dir) : t'.IsProper := by
  cases hlocate : t.locate false p with
  | error e => simp [FileTree.removeAll, hlocate, bind, Except.bind] at h
  | ok place =>
    simp only [FileTree.removeAll, hlocate, bind, Except.bind] at h
    obtain rfl := Except.ok.inj h
    obtain ⟨-, hentries⟩ := getElem?_foldl_erase (t := t) (t.entries.keys.filter place.isPrefixOf)
    refine ⟨fun q e hq he => ?_, hstart⟩
    rw [hentries] at he
    split at he
    · simp at he
    · next hkept =>
      obtain ⟨d, name, rfl, hd, hname⟩ := ht.spot q e hq he
      refine ⟨d, name, rfl, ?_, hname⟩
      by_cases hnil : d = []
      · subst hnil
        rfl
      · rw [entry?_eq_of_ne_nil hnil] at hd ⊢
        rw [hentries, if_neg, hd]
        -- A directory that is removed takes its entries with it.
        intro hgone
        obtain ⟨-, hprefix⟩ := List.mem_filter.1 hgone
        have hbelow : place <+: d ++ [name] :=
          (List.isPrefixOf_iff_prefix.1 hprefix).trans (List.prefix_append d [name])
        refine hkept (List.mem_filter.2 ⟨?_, List.isPrefixOf_iff_prefix.2 hbelow⟩)
        exact Std.ExtTreeMap.mem_keys.2 (Std.ExtTreeMap.mem_iff_isSome_getElem?.2 (by simp [he]))

/-! ## Edits -/

/-- A file is written where a path leads, or what stands there is removed. No directory is touched. -/
inductive Edit (t : FileTree) : FileTree → Prop
  | at {followLast : Bool} {p : Path} {place : Place} (contents? : Option ByteArray)
      (hlocate : t.locate followLast p = .ok place) (hdir : t.entry? place ≠ some .dir) :
      Edit t (t.put place (contents?.map .file))

/-- The tree comes about by edits one after the other. -/
abbrev Edits : FileTree → FileTree → Prop :=
  Relation.ReflTransGen Edit

theorem Edit.isProper (h : Edit t t') (ht : t.IsProper) : t'.IsProper := by
  cases h with
  | «at» contents? hlocate hdir => exact ht.put_of_locate hlocate hdir _

/-- An edit leaves the directories as they are, also where paths start. -/
theorem Edit.frame (h : Edit t t') :
    t'.workDir = t.workDir ∧ ∀ q, t'.entry? q = some .dir ↔ t.entry? q = some .dir := by
  cases h with
  | @«at» followLast p place contents? hlocate hdir =>
    refine ⟨workDir_put, fun q => ?_⟩
    by_cases hq : place = q
    · subst hq
      have hplace : place ≠ [] := ne_nil_of_entry?_ne_dir hdir
      rw [entry?_put_self hplace]
      cases contents? <;> simpa using hdir
    · rw [entry?_put_of_ne hq]

theorem Edits.isProper (h : Edits t t') (ht : t.IsProper) : t'.IsProper := by
  induction h with
  | refl => exact ht
  | tail _ hedit ih => exact hedit.isProper ih

theorem Edits.frame (h : Edits t t') :
    t'.workDir = t.workDir ∧ ∀ q, t'.entry? q = some .dir ↔ t.entry? q = some .dir := by
  induction h with
  | refl => exact ⟨rfl, fun _ => Iff.rfl⟩
  | tail _ hedit ih =>
      obtain ⟨hstart, hdirs⟩ := hedit.frame
      exact ⟨hstart.trans ih.1, fun q => (hdirs q).trans (ih.2 q)⟩

end FileTree

/-! ## Runs -/

theorem Cleared.edits (h : Cleared t p t₀) : Edits t t₀ := by
  cases h with
  | unreachable => exact .refl
  | removed hlocate hdir => exact .single (.at none hlocate hdir)

/-- What the generation of a companion does to the tree, whatever comes of it, are edits. -/
theorem generateFile_edits (t : FileTree) (c : Config) (input : Path) :
    Edits t (generateFile t c input).2 := by
  rw [generateFile]
  split
  · exact .refl
  · next output _ =>
    rcases removeStale_cases t output with ⟨t₀, hremove, hcleared⟩ | ⟨e, -, -, hremove⟩
    · rw [hremove]
      dsimp only
      split
      · exact hcleared.edits
      split
      · exact hcleared.edits
      split
      · exact hcleared.edits
      · next t₁ hwrite =>
        obtain ⟨place, hlocate, hdir, rfl⟩ := writeFile_eq_ok hwrite
        exact hcleared.edits.tail (.at (some _) hlocate hdir)
    · rw [hremove]

theorem generateFiles_edits (t : FileTree) (c : Config) (headers : List Path) :
    Edits t (generateFiles t c headers).2 := by
  induction headers generalizing t with
  | nil => exact .refl
  | cons input rest ih =>
      have hfirst : Edits t (generateFile t c input).2 := generateFile_edits t c input
      rw [generateFiles]
      rcases hresult : generateFile t c input with ⟨e | outcome, t₁⟩
      · rwa [hresult] at hfirst
      · rw [hresult] at hfirst
        have hrest : Edits t (generateFiles t₁ c rest).2 := hfirst.trans (ih t₁)
        dsimp only
        rcases hresults : generateFiles t₁ c rest with ⟨e | outcomes, t₂⟩ <;> rwa [hresults] at hrest

theorem generateDir_edits (t : FileTree) (c : Config) (root : Path) :
    Edits t (generateDir t c root).2 := by
  rw [generateDir]
  split
  · exact .refl
  · exact generateFiles_edits t c _

theorem CommandLine.generate_edits (t : FileTree) (c : Config) (json : Bool) (path : Path) :
    Edits t (generate t c json path).2 := by
  have houtcomes : Edits t (outcomesOf t c path).2 := by
    rw [outcomesOf]
    split
    · exact generateDir_edits t c path
    · exact generateFiles_edits t c [path]
  rw [generate_eq]
  rcases hresult : outcomesOf t c path with ⟨e | outcomes, t'⟩ <;> rwa [hresult] at houtcomes

/-- A run comes down to edits, whatever its arguments are and however it ends. -/
theorem CommandLine.run_edits (t : FileTree) (arguments : List Text) :
    Edits t (run t arguments).2 := by
  rw [run]
  cases parse arguments with
  | run o =>
    dsimp only
    rw [runOptions]
    rcases resolveConfig t o with ⟨warnings, e | c⟩
    · exact .refl
    · dsimp only
      split
      · exact .refl
      · exact generate_edits t c o.json o.path
  | help => exact .refl
  | version => exact .refl
  | misuse => exact .refl

/-- A run makes no directory and removes none. -/
theorem CommandLine.entry?_run_eq_dir_iff {arguments : List Text} :
    entry? (run t arguments).2 q = some .dir ↔ t.entry? q = some .dir :=
  (run_edits t arguments).frame.2 q

/-- Runs one after the other keep a proper tree proper. -/
theorem CommandLine.isProper_runs (ht : t.IsProper) (runs : List (List Text)) :
    (runs.foldl (fun t arguments => (run t arguments).2) t).IsProper := by
  induction runs generalizing t with
  | nil => exact ht
  | cons arguments runs ih => exact ih ((run_edits t arguments).isProper ht)

end HeaderReflection
