/-
  HeaderReflection.Proofs.Files.Directory

  A run over a directory. It settles in one go: the tree that it leaves is the
  old one with every companion as a preview gave it, the order of the headers
  makes no difference, and a second run changes nothing.
-/
import HeaderReflection.Proofs.Files.Listing

namespace HeaderReflection

open FileTree Walk HeaderReflection.Path

variable {s t t' : FileTree} {c : Config} {root path input output : Path} {q place d : Place}
variable {way seen : List Place} {name n : Text} {e : Entry} {start : Start} {rules : List RulesAt}
variable {xs : List Text} {links' : Nat} {headers hs : List Path} {contents : ByteArray}

/-! ## Listed headers -/

namespace FileTree

/-- Are all entries called as entries of a directory can be? -/
def WellNamed (t : FileTree) : Prop :=
  ∀ (place : Place) (e : Entry), t.entries[place]? = some e →
    ∀ name ∈ place, IsName name ∧ Text.size name ≤ maxNameSize

theorem WellNamed.isName (h : t.WellNamed) (he : t.entries[place ++ [name]]? = some e) :
    IsName name ∧ IsLookedUp name := by
  obtain ⟨hname, hsize⟩ := h _ e he name (by simp)
  exact ⟨hname, hname.2.2.1, hname.2.2.2, hsize⟩

end FileTree

/-- A header that is listed is found in its directory. -/
theorem Walk.Lies.exists_reaches (hlies : Lies t c input d name place path) (hnames : t.WellNamed)
    (hreaches : Reaches t maxLinks (t.origin path) xs seen links' place)
    (hxs : undotted xs = names path) (hway : way ⊆ seen) (hseen : ∀ q ∈ seen, IsKept t c way q) :
    ∃ ys seen' links'', steps input = ys ++ [name] ∧ IsName name ∧ IsLookedUp name ∧
      c.isInputName name = true ∧ (∃ contents, t.entries[d ++ [name]]? = some (.file contents)) ∧
      Reaches t maxLinks (t.origin input) ys seen' links'' d ∧ way ⊆ seen' ∧
      ∀ q ∈ seen', IsKept t c way q := by
  -- Each directory that is entered adds its name to the path and its place to those on the way.
  induction hlies generalizing xs seen with
  | @here path contents hfile hinputName hinput =>
      obtain ⟨hname, hlooked⟩ := hnames.isName hfile
      subst hinput
      obtain ⟨ys, hys, hundotted⟩ := steps_join (r := path) hname
      have horigin : t.origin (path.join name) = t.origin path := by
        simp [FileTree.origin, isAbsolute_join hname]
      exact ⟨ys, seen, links', hys, hname, hlooked, hinputName, ⟨contents, hfile⟩,
        horigin ▸ hreaches.of_undotted (hundotted.trans hxs.symm), hway, hseen⟩
  | @enter place path dirName hdir _ ih =>
      obtain ⟨hname, hlooked⟩ := hnames.isName hdir
      have hentry : t.entry? (place ++ [dirName]) = some .dir := by
        rw [entry?_eq_of_ne_nil (by simp), hdir]
      have horigin : t.origin (path.join dirName) = t.origin path := by
        simp [FileTree.origin, isAbsolute_join hname]
      have hbelow : Reaches t maxLinks (t.origin (path.join dirName)) (xs ++ [dirName])
          (seen ++ [place ++ [dirName]]) links' (place ++ [dirName]) :=
        horigin ▸ hreaches.append (.enter hlooked hentry .done)
      refine ih hbelow ?_ ?_ ?_
      · rw [undotted_append, hxs, undotted_cons hname.2.2.1, names_join hname]
        rfl
      · exact fun q hq => List.mem_append_left _ (hway hq)
      · exact List.forall_mem_append.2 ⟨hseen, by simpa using .inr (.inl hentry)⟩

/-- The contents of the header whose companion's place is given. -/
def headerContents (t : FileTree) (c : Config) (q : Place) : ByteArray :=
  match q.getLast?.bind (Text.dropEnding? c.companionEnding) with
  | some stem =>
    match t.entries[q.dropLast ++ [stem ++ c.headerEnding]]? with
    | some (.file contents) => contents
    | _ => default
  | none => default

theorem headerContents_eq {stem : Text}
    (h : t.entries[d ++ [stem ++ c.headerEnding]]? = some (.file contents)) :
    headerContents t c (d ++ [stem ++ c.companionEnding]) = contents := by
  simp [headerContents, Text.dropEnding?, h]

/-- A path whose last step is to a name has that file name, if it has any. -/
theorem FileTree.fileName_eq_of_steps {p : Path} (h : p.fileName? = some n)
    (hsteps : steps p = xs ++ [name]) (hname : name ≠ ['.']) : n = name := by
  obtain ⟨r, ys, dots, -, hsteps', hdots, -, -, hn⟩ := steps_of_fileName? h
  have hdots' : undotted dots = [] := by simpa [undotted] using hdots
  have hlast : undotted ys ++ [n] = undotted xs ++ [name] := by
    have hsame := congrArg undotted (hsteps'.symm.trans hsteps)
    rwa [undotted_append, undotted_append, undotted_cons hn.2.2.1, undotted_cons hname, hdots']
      at hsame
  simpa using (List.append_inj' hlast rfl).2

/-- A header that is listed has a site in its directory, if it has a companion at all. -/
theorem Walk.Lies.exists_site (hlies : Lies t c input d name place path) (hnames : t.WellNamed)
    (hsuffix : c.generatedSuffix ≠ []) (hslash : '/' ∉ c.generatedSuffix)
    (hreaches : Reaches t maxLinks (t.origin path) xs seen links' place)
    (hxs : undotted xs = names path) (hway : way ⊆ seen) (hseen : ∀ q ∈ seen, IsKept t c way q)
    (hcompanion : c.companionPath? input = some output) :
    ∃ stem trail contents, name = stem ++ c.headerEnding ∧
      t.entries[d ++ [name]]? = some (.file contents) ∧
      Site t c input output trail (d ++ [name]) contents d (stem ++ c.companionEnding) ∧
      way ⊆ trail ∧ ∀ q ∈ trail, IsKept t c way q := by
  obtain ⟨ys, seen', links'', hsteps, hname, hlooked, hinputName, ⟨contents, hfile⟩, hd, hway', hseen'⟩ :=
    hlies.exists_reaches hnames hreaches hxs hway hseen
  obtain ⟨stem, r, hfileName, -, -⟩ := c.companionPath?_eq_some hcompanion
  rw [fileName_eq_of_steps hfileName hsteps hname.2.2.1] at hfileName
  have hentry : t.entry? (d ++ [name]) = some (.file contents) := by
    rw [entry?_eq_of_ne_nil (by simp), hfile]
  have hreads : Follows t true links'' d [name] [d ++ [name]] (.ok (d ++ [name])) :=
    .stop hlooked (by rw [hentry]; rfl)
  obtain ⟨stem, rfl, hsite⟩ := Site.of_reaches hsuffix hslash hcompanion hfileName hsteps (by simp)
    hd hreads hentry
  refine ⟨stem, _, contents, rfl, hfile, hsite, fun q hq => by simp [hway' hq], fun q hq => ?_⟩
  have hkept : IsKept t c way (d ++ [stem ++ c.headerEnding]) := .inr (.inr ⟨d, _, rfl, hinputName⟩)
  rcases List.mem_append.1 hq with hq | hq
  · rcases List.mem_append.1 hq with hq | hq
    · exact hseen' q hq
    · exact List.mem_singleton.1 hq ▸ hkept
  · exact List.mem_singleton.1 hq ▸ hkept

/-- A header that is listed is sited. -/
theorem Walk.Lies.isSited (hlies : Lies t c input d name place path) (hnames : t.WellNamed)
    (hsuffix : c.generatedSuffix ≠ []) (hslash : '/' ∉ c.generatedSuffix)
    (hreaches : Reaches t maxLinks (t.origin path) xs seen links' place)
    (hxs : undotted xs = names path) (hway : way ⊆ seen) (hseen : ∀ q ∈ seen, IsKept t c way q) :
    IsSited t c way (headerContents t c) input := by
  intro output hcompanion
  obtain ⟨stem, trail, contents, rfl, hfile, hsite, hway', htrail⟩ :=
    hlies.exists_site hnames hsuffix hslash hreaches hxs hway hseen hcompanion
  exact ⟨_, _, _, _, _, hsite, hway', htrail, headerContents_eq hfile⟩

/-- A root that is a header is sited. -/
theorem isSited_root (hsuffix : c.generatedSuffix ≠ []) (hslash : '/' ∉ c.generatedSuffix)
    (hfollows : Follows t true maxLinks (t.origin root) (steps root) seen (.ok place))
    (hfile : t.entry? place = some (.file contents)) :
    IsSited t c (seen ++ [place]) (fun _ => contents) root := by
  intro output hcompanion
  obtain ⟨stem, r, hname, -, -⟩ := c.companionPath?_eq_some hcompanion
  obtain ⟨-, xs, dots, -, hsteps, hdots, -, -, -⟩ := steps_of_fileName? hname
  rw [hsteps] at hfollows
  obtain ⟨seen₁, seen₂, links', d, rfl, hd, hreads⟩ := hfollows.exists_reaches
  obtain ⟨stem, -, hsite⟩ := Site.of_reaches hsuffix hslash hcompanion hname hsteps hdots hd hreads hfile
  exact ⟨_, _, _, _, _, hsite, List.Subset.refl _, fun q hq => .inl hq, rfl⟩

/-! ## Ignore files -/

/-- Where the walk of a root at a place starts. -/
def startAt (t : FileTree) (root : Path) (place : Place) : Start :=
  ⟨root, place, ((readAbove t place).map (·.1)).reverse⟩

/-- The ignore file of the directory is read in a walk of the root: the directory is above the root,
or the walk comes by it. -/
inductive IsConsulted (t : FileTree) (c : Config) (root : Path) : Place → Prop
  | above {place : Place} {n : Nat} (hroot : t.locate true root = .ok place)
      (hdir : t.entry? place = some .dir) (hn : n < place.length) :
      IsConsulted t c root (place.take n)
  | below {place d : Place} (hroot : t.locate true root = .ok place)
      (hdir : t.entry? place = some .dir) (h : ComesBy t c (startAt t root place) [] place root d) :
      IsConsulted t c root d

/-- The ignore file of the directory leads to the place, or by it to another one. -/
def IgnoreFileLeadsBy (t : FileTree) (d q : Place) : Prop :=
  ∃ seen result, Follows t true maxLinks d [ignoreFileName] seen result ∧
    (q ∈ seen ∨ result = .ok q)

/-- An ignore file that leads by another place is a link. -/
theorem IgnoreFileLeadsBy.exists_link (h : IgnoreFileLeadsBy t d q) (hq : q ≠ d ++ [ignoreFileName]) :
    ∃ target, t.entry? (d ++ [ignoreFileName]) = some (.link target) := by
  obtain ⟨seen, result, hfollows, hmem⟩ := h
  generalize hnames : [ignoreFileName] = names at hfollows
  cases hfollows with
  | done => simp at hnames
  | stay => exact absurd (List.cons.inj hnames).1 (by decide)
  | up => exact absurd (List.cons.inj hnames).1 (by decide)
  | tooLong => simp at hmem
  | stop hname hend =>
    obtain ⟨rfl, rfl⟩ := List.cons.inj hnames
    rcases hmem with hmem | rfl
    · exact absurd (List.mem_singleton.1 hmem) hq
    · exact absurd (eq_of_ending?_eq_ok hend).2.1.symm hq
  | enter hname hdir h =>
    obtain ⟨rfl, rfl⟩ := List.cons.inj hnames
    cases h
    simp [hq, Ne.symm hq] at hmem
  | @follow _ _ _ target _ _ _ hname hlink =>
    obtain ⟨rfl, rfl⟩ := List.cons.inj hnames
    exact ⟨target, hlink⟩

/-- No companion is called like an ignore file. -/
theorem companion_ne_ignoreFile {stem : Text} (hsuffix : c.generatedSuffix ≠ []) :
    q ++ [stem ++ c.companionEnding] ≠ d ++ [ignoreFileName] := by
  intro h
  have hname : (stem ++ c.generatedSuffix) ++ '.' :: c.extension = ignoreFileName := by
    simpa [Config.companionEnding, Config.headerEnding] using (List.append_inj' h rfl).2
  -- The only point of the name is at its front, where a companion's ending is not.
  obtain ⟨x, front, hfront⟩ := List.exists_cons_of_ne_nil
    (List.append_ne_nil_of_right_ne_nil stem hsuffix)
  rw [hfront, List.cons_append] at hname
  have hrest : front ++ '.' :: c.extension = "ignore".toList := (List.cons.inj hname).2
  have hpoint : '.' ∈ "ignore".toList := hrest ▸ by simp
  exact absurd hpoint (by decide)

/-- The rules of a directory stand in the file that its ignore file leads to, if it leads to one. -/
theorem readRules_of_walk (h : t.walk true maxLinks d [ignoreFileName] = .ok q) :
    readRules t d path = match t.entry? q with
      | some (.file contents) =>
        (⟨path, (Ignore.readFile (path.join ignoreFileName) contents).1⟩,
          (Ignore.readFile (path.join ignoreFileName) contents).2)
      | _ => (⟨path, []⟩, []) := by
  simp only [readRules, h, bind, Except.bind]
  cases t.entry? q with
  | none => rfl
  | some e => cases e <;> rfl

/-- The rules of a directory depend on what its ignore file leads by. -/
theorem readRules_eq (h : ∀ q, IgnoreFileLeadsBy t d q → t'.entry? q = t.entry? q) :
    readRules t' d path = readRules t d path := by
  obtain ⟨seen, hseen⟩ := exists_follows t true maxLinks d [ignoreFileName]
  have hwalk : t'.walk true maxLinks d [ignoreFileName] = t.walk true maxLinks d [ignoreFileName] :=
    (hseen.congr fun q hq => h q ⟨seen, _, hseen, .inl hq⟩).walk_eq
  cases hfile : t.walk true maxLinks d [ignoreFileName] with
  | error e => simp [readRules, hwalk, hfile, bind, Except.bind]
  | ok q =>
    have hentry : t'.entry? q = t.entry? q := h q ⟨seen, _, hseen, .inr hfile⟩
    rw [readRules_of_walk (hwalk.trans hfile), readRules_of_walk hfile, hentry]

/-- The headers are the same in a tree that has kept what a run keeps, if the root is found and the
same rules are read. -/
theorem collectHeaders_eq (hcollect : collectHeaders t c root = .ok headers)
    (hroot : ∀ place, t.locate true root = .ok place →
      t'.locate true root = .ok place ∧ t'.entry? place = t.entry? place)
    (hkeeps : Keeps t c way t')
    (hrules : ∀ d, IsConsulted t c root d → ∀ p, readRules t' d p = readRules t d p) :
    collectHeaders t' c root = .ok headers := by
  rw [collectHeaders] at hcollect ⊢
  split
  · next hstdin => simpa [hstdin] using hcollect
  · next hstdin =>
    rw [if_neg hstdin] at hcollect
    cases hlocate : t.locate true root with
    | error e => simp [hlocate] at hcollect
    | ok place =>
      obtain ⟨hlocate', hentry⟩ := hroot place hlocate
      simp only [hlocate, hlocate', hentry] at hcollect ⊢
      -- Only a root that is a directory is walked.
      cases he : t.entry? place with
      | none => simp [he] at hcollect
      | some e =>
        cases e with
        | file => simpa [he] using hcollect
        | link => simpa [he] using hcollect
        | dir =>
          have habove : readAbove t' place = readAbove t place := by
            refine List.map_congr_left fun n hn => ?_
            exact hrules _ (.above hlocate he (List.mem_range.1 hn)) _
          simp only [he, habove] at hcollect ⊢
          split
          · next hfaults =>
            rw [if_pos hfaults] at hcollect
            rw [← hcollect]
            -- The bound is that of the old tree, and goes for the new one as well.
            have hcard : (t'.dirsBelow place).card ≤ t.entries.size := by
              rw [dirsBelow_eq hkeeps]
              exact card_dirsBelow_le
            refine congrArg Except.ok ?_
            exact (headersBelow_bound (Nat.lt_succ_of_le card_dirsBelow_le)
              (Nat.lt_succ_of_le hcard)).trans
              (headersBelow_eq hkeeps fun d hd => hrules d (.below hlocate he hd))
          · next hfaults => simp [hfaults] at hcollect

/-! ## What is listed -/

/-- A root that is no directory is its own only header. -/
theorem headers_of_not_dir (hcollect : collectHeaders t c root = .ok headers)
    (hdir : ∀ place, t.locate true root = .ok place → t.entry? place ≠ some .dir) :
    headers = [] ∨ headers = [root] := by
  rw [collectHeaders] at hcollect
  split at hcollect
  · exact .inl (Except.ok.inj hcollect).symm
  split at hcollect
  · simp at hcollect
  · next place hlocate =>
    split at hcollect
    · simp at hcollect
    · next hentry => exact absurd hentry (hdir place hlocate)
    · split at hcollect
      · exact .inr (Except.ok.inj hcollect).symm
      · exact .inl (Except.ok.inj hcollect).symm

/-- The headers of a directory are those below it, unless its path asks for the standard input. -/
theorem headers_of_dir (hcollect : collectHeaders t c root = .ok headers)
    (hlocate : t.locate true root = .ok place) (hdir : t.entry? place = some .dir) :
    headers = [] ∨
      ∃ start, headers = headersBelow t c start (t.entries.size + 1) [] place root := by
  rw [collectHeaders] at hcollect
  split at hcollect
  · exact .inl (Except.ok.inj hcollect).symm
  · simp only [hlocate, hdir] at hcollect
    split at hcollect
    · exact .inr ⟨_, (Except.ok.inj hcollect).symm⟩
    · simp at hcollect

/-! ## Sited runs -/

/-- A header whose companion has been generated leads to a file. -/
theorem status_of_generateFile {o : Outcome} (hok : (generateFile t c input).1 = .ok o) :
    ∃ contents, t.status input = .ok (.file contents) := by
  have hgen := generateFile_generates t c input
  rw [hok] at hgen
  generalize (generateFile t c input).2 = t' at hgen
  cases hgen with
  | skipped _ hcleared hread =>
    obtain ⟨contents, -, hstatus, -⟩ := readExtraction_eq_ok.1 (hcleared.readExtraction hread)
    exact ⟨contents, hstatus⟩
  | generated _ hcleared hread =>
    obtain ⟨contents, -, hstatus, -⟩ := readExtraction_eq_ok.1 (hcleared.readExtraction hread)
    exact ⟨contents, hstatus⟩

/-- A tree that has kept the way to the root has the root at the same place. -/
theorem Keeps.locate_root (hkeeps : Keeps t c way t') (hlocate : t.locate true root = .ok place)
    (hfollows : Follows t true maxLinks (t.origin root) (steps root) seen (.ok place))
    (hseen : ∀ q ∈ seen, IsKept t c way q) (hplace : IsKept t c way place) :
    t'.locate true root = .ok place ∧ t'.entry? place = t.entry? place := by
  refine ⟨?_, hkeeps.entry place hplace⟩
  have horigin : t'.origin root = t.origin root := by simp [origin, hkeeps.workDir]
  rw [locate_of_isOpenable (isOpenable_of_locate hlocate), horigin]
  exact (hfollows.congr fun q hq => hkeeps.entry q (hseen q hq)).walk_eq

/-- All headers of a run that goes well are sited, and the run keeps the way to its root. -/
theorem exists_isSited {outcomes : List Outcome} (hnames : t.WellNamed)
    (hsuffix : c.generatedSuffix ≠ []) (hslash : '/' ∉ c.generatedSuffix)
    (hcollect : collectHeaders t c root = .ok headers)
    (hok : (generateFiles t c headers).1 = .ok outcomes) :
    ∃ way source, (∀ h ∈ headers, IsSited t c way source h) ∧ ∀ t', Keeps t c way t' →
      ∀ place, t.locate true root = .ok place →
        t'.locate true root = .ok place ∧ t'.entry? place = t.entry? place := by
  by_cases hdir : ∃ place, t.locate true root = .ok place ∧ t.entry? place = some .dir
  · -- The root is a directory: the places on the way to it are kept.
    obtain ⟨place, hlocate, hdir⟩ := hdir
    obtain ⟨seen, hfollows⟩ := exists_follows t true maxLinks (t.origin root) (steps root)
    rw [← locate_of_isOpenable (isOpenable_of_locate hlocate), hlocate] at hfollows
    obtain ⟨links', hreaches⟩ := hfollows.reaches hdir
    refine ⟨seen, headerContents t c, fun h hh => ?_, fun t' hkeeps q hq => ?_⟩
    · rcases headers_of_dir hcollect hlocate hdir with rfl | ⟨start, rfl⟩
      · simp at hh
      · obtain ⟨d, name, hlies⟩ := exists_lies hh
        exact hlies.isSited hnames hsuffix hslash hreaches undotted_steps (List.Subset.refl _)
          fun q hq => .inl hq
    · obtain rfl : place = q := by simpa [hlocate] using hq
      exact hkeeps.locate_root hlocate hfollows (fun q hq => .inl hq) (.inr (.inl hdir))
  · -- There is no other header than the root, and its whole trail is kept.
    have hfile : ∀ place, t.locate true root = .ok place → t.entry? place ≠ some .dir :=
      fun place hlocate hentry => hdir ⟨place, hlocate, hentry⟩
    have hheaders := headers_of_not_dir hcollect hfile
    cases hlocate : t.locate true root with
    | error e =>
      refine ⟨[], fun _ => default, fun h hh => ?_, by simp⟩
      rcases hheaders with rfl | rfl
      · simp at hh
      · obtain ⟨o, -, hfirst, -⟩ := of_generateFiles_cons hok
        obtain ⟨contents, hstatus⟩ := status_of_generateFile hfirst
        obtain ⟨q, hq, -⟩ := status_eq_ok.1 hstatus
        simp [hlocate] at hq
    | ok place =>
      obtain ⟨seen, hfollows⟩ := exists_follows t true maxLinks (t.origin root) (steps root)
      rw [← locate_of_isOpenable (isOpenable_of_locate hlocate), hlocate] at hfollows
      have hkept : ∀ t', Keeps t c (seen ++ [place]) t' → ∀ q, (.ok place : Except FileError Place) = .ok q →
          t'.locate true root = .ok q ∧ t'.entry? q = t.entry? q := by
        rintro t' hkeeps q ⟨⟩
        exact hkeeps.locate_root hlocate hfollows
          (fun q hq => .inl (List.mem_append_left _ hq)) (.inl (by simp))
      rcases hheaders with rfl | rfl
      · exact ⟨_, fun _ => default, by simp, hkept⟩
      · obtain ⟨o, -, hfirst, -⟩ := of_generateFiles_cons hok
        obtain ⟨contents, hstatus⟩ := status_of_generateFile hfirst
        obtain ⟨q, hq, hfile⟩ := status_eq_ok.1 hstatus
        obtain rfl : place = q := by simpa [hlocate] using hq
        exact ⟨_, fun _ => contents, by simpa using isSited_root hsuffix hslash hfollows hfile, hkept⟩

/-! ## The run -/

/-- An ignore file of the root's walk is a link that leads to or by the place of a companion. -/
def LinksToCompanion (t : FileTree) (c : Config) (root : Path) (headers : List Path) : Prop :=
  ∃ d target, IsConsulted t c root d ∧ t.entry? (d ++ [ignoreFileName]) = some (.link target) ∧
    ∃ h ∈ headers, ∃ output q, c.companionPath? h = some output ∧ t.locate false output = .ok q ∧
      IgnoreFileLeadsBy t d q

/-- A run over a directory that goes well settles it. Every header's companion is then what a preview
gave before, or absent, and nothing else has changed; any order of the headers leaves the same tree
and has the same outcomes. If no ignore file is a link to or by a companion, the headers stay the same
and a second run changes nothing. -/
theorem generateDir_settles {outcomes : List Outcome} (hnames : t.WellNamed)
    (hsuffix : c.generatedSuffix ≠ []) (hslash : '/' ∉ c.generatedSuffix)
    (hrun : generateDir t c root = (.ok outcomes, t')) :
    ∃ headers, collectHeaders t c root = .ok headers ∧
      (t'.workDir = t.workDir ∧
        (∀ h ∈ headers, ∃ output place text?, c.companionPath? h = some output ∧
          t.locate false output = .ok place ∧ previewFile t c h = .ok text? ∧
          t'.entries[place]? = text?.map fun text => .file (Text.encode text)) ∧
        ∀ q, (∀ h ∈ headers, ∀ output, c.companionPath? h = some output →
          t.locate false output ≠ .ok q) → t'.entries[q]? = t.entries[q]?) ∧
      (∃ outcome : Path → Outcome, outcomes = headers.map outcome ∧
        ∀ order : List Path, order.Perm headers →
          generateFiles t c order = (.ok (order.map outcome), t')) ∧
      (¬ LinksToCompanion t c root headers →
        collectHeaders t' c root = .ok headers ∧ generateDir t' c root = (.ok outcomes, t')) := by
  cases hcollect : collectHeaders t c root with
  | error e => simp [generateDir, hcollect] at hrun
  | ok headers =>
    have hfiles : generateFiles t c headers = (.ok outcomes, t') := by
      simpa [generateDir, hcollect] using hrun
    have hok : (generateFiles t c headers).1 = .ok outcomes := by rw [hfiles]
    obtain ⟨way, source, hsited, hroot⟩ := exists_isSited hnames hsuffix hslash hcollect hok
    have : Nonempty Outcome := ⟨.skipped []⟩
    choose! dest outcome hsteady using exists_isSteady_of_generateFiles hsited Keeps.refl hok
    have hsame : ∀ h ∈ headers, ∀ h' ∈ headers, dest h = dest h' →
        companionOf c (source (dest h)) = companionOf c (source (dest h')) :=
      fun h _ h' _ hdest => by rw [hdest]
    obtain ⟨hrun', hkeeps⟩ := generateFiles_eq hsteady Keeps.refl
    rw [hfiles, Prod.mk.injEq, Except.ok.injEq] at hrun'
    obtain ⟨rfl, ht'⟩ := hrun'
    rw [← ht'] at hkeeps
    refine ⟨headers, rfl, ⟨hkeeps.workDir, fun h hh => ?_, fun q hq => ?_⟩,
      ⟨outcome, rfl, fun order hperm => ?_⟩, fun hlinks => ?_⟩
    · obtain ⟨output, hcompanion, hlocate⟩ := (hsteady h hh).located
      obtain ⟨text?, hpreview, hvalue⟩ := (hsteady h hh).preview
      refine ⟨output, dest h, text?, hcompanion, hlocate, hpreview, ?_⟩
      rw [ht', getElem?_putAll hsame hh, hvalue]
    · rw [ht', getElem?_putAll_of_ne]
      rintro h hh rfl
      obtain ⟨output, hcompanion, hlocate⟩ := (hsteady h hh).located
      exact hq h hh output hcompanion hlocate
    · have hsteady' : ∀ h ∈ order, IsSteady t c way source h (dest h) (outcome h) :=
        fun h hh => hsteady h (hperm.mem_iff.1 hh)
      rw [(generateFiles_eq hsteady' Keeps.refl).1, ht', putAll_perm hsame hperm]
    · have hcollect' : collectHeaders t' c root = .ok headers := by
        refine collectHeaders_eq hcollect (hroot t' hkeeps) hkeeps fun d hd p => readRules_eq ?_
        intro q hq
        by_cases hdest : ∃ h ∈ headers, dest h = q
        · obtain ⟨h, hh, rfl⟩ := hdest
          obtain ⟨output, hcompanion, hlocate⟩ := (hsteady h hh).located
          obtain ⟨e, stem, hnamed⟩ := (hsteady h hh).named
          -- An ignore file that is no link leads by itself alone, and is no companion.
          obtain ⟨target, htarget⟩ := hq.exists_link
            (by rw [hnamed]; exact companion_ne_ignoreFile hsuffix)
          exact absurd ⟨d, target, hd, htarget, h, hh, output, _, hcompanion, hlocate, hq⟩ hlinks
        · have hne : ∀ h ∈ headers, dest h ≠ q := fun h hh heq => hdest ⟨h, hh, heq⟩
          by_cases hnil : q = []
          · rw [hnil]
            rfl
          · rw [entry?_eq_of_ne_nil hnil, entry?_eq_of_ne_nil hnil, ht', getElem?_putAll_of_ne hne]
      refine ⟨hcollect', ?_⟩
      have hagain := (generateFiles_eq hsteady hkeeps).1
      rw [ht', putAll_putAll hsame, ← ht'] at hagain
      simp [generateDir, hcollect', hagain]

/-! ## A root with old companions -/

theorem FileTree.wellNamed_of_toList (h : ∀ x ∈ t.entries.toList, ∀ name ∈ x.1,
    IsName name ∧ Text.size name ≤ maxNameSize) : t.WellNamed := fun place e he =>
  h (place, e) (Std.ExtTreeMap.mem_toList_iff_getElem?_eq_some.2 he)

theorem wellNamed_staleTree : staleTree.WellNamed :=
  wellNamed_of_toList (by decide +kernel)

/-- No directory is above the root of the tree, so the walk reads no rules before it starts there. -/
theorem collectHeaders_dot (hwork : t.workDir = []) : collectHeaders t c ".".toList =
    .ok ((t.children []).flatMap (headersOfEntry t c ⟨".".toList, [], []⟩ t.entries.size
      [(readRules t [] ".".toList).1] [] ".".toList)) := by
  have hstdin : isStandardInput ".".toList = false := by decide +kernel
  rw [← headersBelow_succ, collectHeaders, hstdin, locate_dot, hwork]
  rfl

theorem collectHeaders_staleTree : collectHeaders staleTree .default ".".toList =
    .ok ["./a.h".toList, "./b.h".toList] := by
  have hignore : staleTree.walk true maxLinks [] [ignoreFileName] = .ok [ignoreFileName] :=
    Follows.walk_eq (.stop (by decide) (by decide +kernel))
  rw [collectHeaders_dot rfl, readRules_of_walk hignore]
  decide +kernel

theorem generateDir_staleTree : generateDir staleTree .default ".".toList =
    (.ok [.skipped "./a.h".toList,
      .generated "./b.h".toList "./b_generated.h".toList staleEnum], settledTree) := by
  simp only [generateDir, collectHeaders_staleTree, generateFiles, generateFile_staleTree,
    generateFile_clearedTree]

/-- One old companion goes, a new one takes the place of the other, and then nothing more happens. -/
theorem generateDir_settles_stale :
    ∃ t', generateDir staleTree .default ".".toList =
        (.ok [.skipped "./a.h".toList,
          .generated "./b.h".toList "./b_generated.h".toList staleEnum], t') ∧
      t'.entries[["a_generated.h".toList]]? = none ∧
      (∃ text, previewFile staleTree .default "./b.h".toList = .ok (some text) ∧
        t'.entries[["b_generated.h".toList]]? = some (.file (Text.encode text))) ∧
      generateDir t' .default ".".toList =
        (.ok [.skipped "./a.h".toList,
          .generated "./b.h".toList "./b_generated.h".toList staleEnum], t') := by
  obtain ⟨headers, hcollect, ⟨-, hcompanions, -⟩, -, hagain⟩ :=
    generateDir_settles wellNamed_staleTree (by decide) (by decide) generateDir_staleTree
  obtain rfl := Except.ok.inj (collectHeaders_staleTree.symm.trans hcollect)
  have hlink : staleTree.locate false "./b_generated.h".toList = .ok ["b_generated.h".toList] :=
    locate_of_follows (by decide) (.stay (.stop (by decide) (by decide +kernel)))
  obtain ⟨_, _, text?, hcompanion, hlocate, hpreview, hentry⟩ := hcompanions "./b.h".toList (by simp)
  obtain rfl := Option.some.inj (Config.companionPath?_default_b.symm.trans hcompanion)
  obtain rfl := Except.ok.inj (hlink.symm.trans hlocate)
  have hwritten : settledTree.entries[["b_generated.h".toList]]? =
      companionEntry .default staleEnum := by
    simp [settledTree, getElem?_put]
  refine ⟨settledTree, generateDir_staleTree, by simp [settledTree, clearedTree, getElem?_put],
    ?_, (hagain ?_).2⟩
  · cases text? with
    | none =>
      have hnot : companionEntry .default staleEnum ≠ none := by
        simp [companionEntry, staleEnum, Extraction.isEmpty]
      exact absurd (hwritten.symm.trans hentry) hnot
    | some text => exact ⟨text, hpreview, hentry⟩
  -- No entry is an ignore file.
  · rintro ⟨d, target, -, hignore, -⟩
    rw [entry?_eq_of_ne_nil (by simp), ← Std.ExtTreeMap.mem_toList_iff_getElem?_eq_some] at hignore
    have hnone : ∀ x ∈ staleTree.entries.toList, x.1.getLast? ≠ some ignoreFileName := by
      decide +kernel
    exact hnone _ hignore (by simp)

/-- The same headers with an ignore file that is a link to the old companion. -/
def linkedTree : FileTree :=
  staleTree.set [ignoreFileName] (.link "a_generated.h".toList)

/-- When the old companion goes, so do the rules that left out a header. -/
theorem collectHeaders_ne_of_linked :
    linkedTree.WellNamed ∧ ∃ t', generateDir linkedTree .default ".".toList = (.ok [.skipped "./a.h".toList], t') ∧
      collectHeaders linkedTree .default ".".toList = .ok ["./a.h".toList] ∧
      collectHeaders t' .default ".".toList ≠ .ok ["./a.h".toList] := by
  have hlink : linkedTree.entry? [ignoreFileName] = some (.link "a_generated.h".toList) := by
    decide +kernel
  have hcleared : entry? (linkedTree.put ["a_generated.h".toList] none) [ignoreFileName] =
      some (.link "a_generated.h".toList) := by
    decide +kernel
  have hcollect : collectHeaders linkedTree .default ".".toList = .ok ["./a.h".toList] := by
    have hignore : linkedTree.walk true maxLinks [] [ignoreFileName] = .ok ["a_generated.h".toList] :=
      Follows.walk_eq <| .follow (by decide) hlink (by decide) (fun _ => rfl)
        (.stop (by decide) (by decide +kernel))
    rw [collectHeaders_dot rfl, readRules_of_walk hignore]
    decide +kernel
  have hafter : collectHeaders (linkedTree.put ["a_generated.h".toList] none) .default ".".toList =
      .ok ["./a.h".toList, "./b.h".toList] := by
    have hignore : (linkedTree.put ["a_generated.h".toList] none).walk true maxLinks []
        [ignoreFileName] = .ok ["a_generated.h".toList] :=
      Follows.walk_eq <| .follow (by decide) hcleared (by decide) (fun _ => rfl)
        (.stop (by decide) (by decide +kernel))
    rw [collectHeaders_dot rfl, readRules_of_walk hignore]
    decide +kernel
  have hfirst : generateFile linkedTree .default "./a.h".toList =
      (.ok (.skipped "./a.h".toList), linkedTree.put ["a_generated.h".toList] none) :=
    generateFile_of_empty_header rfl (by decide +kernel) (by decide +kernel)
  refine ⟨wellNamed_of_toList (by decide +kernel),
    linkedTree.put ["a_generated.h".toList] none, ?_, hcollect, ?_⟩
  · simp only [generateDir, hcollect, generateFiles, hfirst]
  · rw [hafter]
    decide

end HeaderReflection
