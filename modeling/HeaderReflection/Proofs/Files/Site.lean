/-
  HeaderReflection.Proofs.Files.Site

  A header and its companion in a tree. The companion lies in the directory
  that the header is found in, so a tree that looks the same on the way to the
  header has the companion at the same place. If one generation of it goes
  well, so does every other one from such a tree, with the same result.
-/
import HeaderReflection.Proofs.Files.Effect
import HeaderReflection.Proofs.Files.Reaching

namespace HeaderReflection

open FileTree HeaderReflection.Path

variable {s t : FileTree} {p input output r : Path} {place d q : Place} {places trail : List Place}
variable {c : Config} {contents : ByteArray} {x : Extraction} {name stem m : Text}
variable {xs dots : List Text} {links' : Nat} {seen₁ seen₂ : List Place} {o : Outcome}

/-! ## Names of companions -/

/-- A companion's path has the header's name with the suffix before the ending. -/
theorem Config.companionPath?_eq_some (h : c.companionPath? input = some output) :
    ∃ stem r, input.fileName? = some (stem ++ c.headerEnding) ∧ input.parent? = some r ∧
      output = r.join (stem ++ c.companionEnding) := by
  obtain ⟨stem, hstem, rfl⟩ := Option.map_eq_some_iff.1 h
  simp only [Text.dropEnding?] at hstem
  split at hstem
  · next hsuffix =>
    obtain ⟨stem', hstem'⟩ := List.isSuffixOf_iff_suffix.1 hsuffix
    cases hname : input.fileName? with
    | none => simp [hname, Config.headerEnding] at hstem'
    | some name =>
      obtain ⟨r, -, -, hparent, -⟩ := steps_of_fileName? hname
      have hstem' : stem' ++ c.headerEnding = name := by simpa [hname] using hstem'
      have hstems : stem' = stem := by simpa [hname, ← hstem'] using hstem
      rw [← hstems]
      exact ⟨stem', r, by rw [hstem'], hparent, withFileName_eq hname hparent⟩
  · simp at hstem

/-- A suffix makes a name of a name. -/
theorem Config.isName_companion (hsuffix : c.generatedSuffix ≠ []) (hslash : '/' ∉ c.generatedSuffix)
    (h : IsName (stem ++ c.headerEnding)) : IsName (stem ++ c.companionEnding) := by
  have hlen : 0 < c.generatedSuffix.length := List.length_pos_iff.2 hsuffix
  have hlength : (stem ++ c.companionEnding).length =
      stem.length + c.generatedSuffix.length + 1 + c.extension.length := by
    simp [Config.companionEnding, Config.headerEnding]
    omega
  refine ⟨by simp [Config.companionEnding, Config.headerEnding], ?_, ?_, ?_⟩
  · have hslash' : '/' ∉ stem ++ c.headerEnding := h.2.1
    simp only [Config.companionEnding, List.mem_append, not_or] at hslash' ⊢
    exact ⟨hslash'.1, hslash, hslash'.2⟩
  · intro hdot
    rw [hdot] at hlength
    simp only [List.length_cons, List.length_nil] at hlength
    omega
  · -- Two dots would be the suffix and the point of the ending alone.
    intro hdots
    rw [hdots] at hlength
    simp only [List.length_cons, List.length_nil] at hlength
    have hstem : stem = [] := List.length_eq_zero_iff.1 (by omega)
    have hext : c.extension = [] := List.length_eq_zero_iff.1 (by omega)
    exact h.2.2.1 (by simp [hstem, hext, Config.headerEnding])

/-- The name of a companion is none of a header. -/
theorem Config.isInputName_companion : c.isInputName (stem ++ c.companionEnding) = false := by
  have : c.companionEnding.isSuffixOf (stem ++ c.companionEnding) := by simp
  simp [Config.isInputName, this]

/-! ## Trees that look the same -/

/-- The trees have the same entries at the places, and relative paths start in the same directory. -/
def SameAt (s t : FileTree) (places : List Place) : Prop :=
  s.workDir = t.workDir ∧ ∀ p ∈ places, s.entry? p = t.entry? p

theorem SameAt.put (h : SameAt s t places) (hplace : place ∉ places) {e : Option Entry} :
    SameAt (s.put place e) t places := by
  refine ⟨workDir_put.trans h.1, fun p hp => ?_⟩
  rw [entry?_put_of_ne (by rintro rfl; exact hplace hp), h.2 p hp]

theorem SameAt.origin (h : SameAt s t places) : s.origin p = t.origin p := by
  simp [FileTree.origin, h.1]

/-! ## Sites -/

/-- A header is read at a place, and its companion lies in the directory `d` under the name `m`, in
every tree that looks the same on the header's trail. -/
structure Site (t : FileTree) (c : Config) (input output : Path) (trail : List Place) (place : Place)
    (contents : ByteArray) (d : Place) (m : Text) : Prop where
  companion : c.companionPath? input = some output
  output_ne : output ≠ []
  reads : ∃ seen, trail = seen ++ [place] ∧
    Follows t true maxLinks (t.origin input) (steps input) seen (.ok place)
  file : t.entry? place = some (.file contents)
  beside : ∀ s, SameAt s t trail → s.walk false maxLinks (s.origin output) (steps output) =
    if maxNameSize < Text.size m then .error .nameTooLong else .ok (d ++ [m])

/-- A single name leads to the entry of that name. -/
theorem FileTree.walk_name (hm : IsName m) : t.walk false links' d [m] =
    if maxNameSize < Text.size m then .error .nameTooLong else .ok (d ++ [m]) := by
  rw [walk, if_neg (by simpa using hm.2.2.1), if_neg (by simpa using hm.2.2.2)]
  split
  · rfl
  · cases he : t.entry? (d ++ [m]) with
    | none => rfl
    | some e => cases e <;> simp [walk]

/-- Where the names of a directory lead to, a name joined to its path is looked up. -/
theorem FileTree.walk_join (hm : IsName m) (habsolute : input.isAbsolute = r.isAbsolute)
    (hundotted : undotted xs = names r)
    (hd : Reaches t maxLinks (t.origin input) xs seen₁ links' d) :
    t.walk false maxLinks (t.origin (r.join m)) (steps (r.join m)) =
      if maxNameSize < Text.size m then .error .nameTooLong else .ok (d ++ [m]) := by
  obtain ⟨ys, hys, hsame⟩ := steps_join (r := r) hm
  have horigin : t.origin (r.join m) = t.origin input := by
    simp [FileTree.origin, isAbsolute_join hm, habsolute]
  have hreaches : Reaches t maxLinks (t.origin (r.join m)) ys seen₁ links' d := by
    rw [horigin]
    exact hd.of_undotted (hsame.trans hundotted.symm)
  obtain ⟨seen, hseen⟩ := exists_follows t false links' d [m]
  rw [hys, (hreaches.follows (by simp) hseen).walk_eq, walk_name hm]

/-- The names in front of a path's last name are those of its parent, but for dots. -/
theorem FileTree.undotted_eq_names (hname : p.fileName? = some name) (hparent : p.parent? = some r)
    (hsteps : steps p = xs ++ name :: dots) (hdots : ∀ d ∈ dots, d = ['.']) :
    undotted xs = names r := by
  obtain ⟨r', xs', dots', hr', hsteps', hdots', hxs', -, hisName⟩ := steps_of_fileName? hname
  obtain rfl : r' = r := by simpa [hr'] using hparent
  have hnil : ∀ ds : List Text, (∀ d ∈ ds, d = ['.']) → undotted ds = [] := fun ds h => by
    simpa [undotted] using h
  have hsame : undotted xs ++ [name] = undotted xs' ++ [name] := by
    have h := congrArg undotted (hsteps.symm.trans hsteps')
    simpa [undotted_cons hisName.2.2.1, hnil _ hdots, hnil _ hdots'] using h
  rw [← hxs', List.append_cancel_right hsame]

/-- A header that is read has a site, if it has a companion at all. -/
theorem Site.of_reaches (hsuffix : c.generatedSuffix ≠ []) (hslash : '/' ∉ c.generatedSuffix)
    (hcompanion : c.companionPath? input = some output) (hname : input.fileName? = some name)
    (hsteps : steps input = xs ++ name :: dots) (hdots : ∀ d ∈ dots, d = ['.'])
    (hd : Reaches t maxLinks (t.origin input) xs seen₁ links' d)
    (hreads : Follows t true links' d (name :: dots) seen₂ (.ok place))
    (hfile : t.entry? place = some (.file contents)) :
    ∃ stem, name = stem ++ c.headerEnding ∧
      Site t c input output (seen₁ ++ seen₂ ++ [place]) place contents d
        (stem ++ c.companionEnding) := by
  obtain ⟨stem, r, hname', hparent, rfl⟩ := c.companionPath?_eq_some hcompanion
  obtain rfl : name = stem ++ c.headerEnding := by simpa [hname] using hname'
  obtain ⟨r', -, -, hparent', -, -, -, habsolute, hisName⟩ := steps_of_fileName? hname
  obtain rfl : r' = r := by simpa [hparent'] using hparent
  have hm := c.isName_companion hsuffix hslash hisName
  refine ⟨stem, rfl, hcompanion, join_ne_nil hm, ⟨seen₁ ++ seen₂, rfl, ?_⟩, hfile, ?_⟩
  · rw [hsteps]
    exact hd.follows (by simp) hreads
  · intro s hsame
    have hd' : Reaches s maxLinks (s.origin input) xs seen₁ links' d := by
      rw [hsame.origin]
      exact hd.congr fun q hq => hsame.2 q (by simp [hq])
    exact walk_join hm habsolute (undotted_eq_names hname hparent' hsteps hdots) hd'

/-! ## Settled headers -/

/-- The generation of the companion goes well: both paths can be asked for, the header can be read,
and the companion's place is not on the header's trail. -/
structure Site.Settled (c : Config) (input output : Path) (trail : List Place) (contents : ByteArray)
    (d : Place) (m : Text) (x : Extraction) : Prop where
  input_open : IsOpenable input
  output_open : IsOpenable output
  short : Text.size m ≤ maxNameSize
  free : d ++ [m] ∉ trail
  read : ∃ raw, Text.decode? contents = some raw ∧ extractSource raw = .ok x

namespace Site

variable (h : Site t c input output trail place contents d m)
include h

/-- The companion's place is found. -/
theorem locate_output (hopen : IsOpenable output) (hshort : Text.size m ≤ maxNameSize)
    (hsame : SameAt s t trail) : s.locate false output = .ok (d ++ [m]) := by
  rw [locate_of_isOpenable hopen, h.beside s hsame, if_neg (by omega)]

/-- The header's contents are found. -/
theorem status_input (hopen : IsOpenable input) (hsame : SameAt s t trail) :
    s.status input = .ok (.file contents) := by
  obtain ⟨seen, rfl, hfollows⟩ := h.reads
  refine status_eq_ok.2 ⟨place, ?_, (hsame.2 place (by simp)).trans h.file⟩
  rw [locate_of_isOpenable hopen, hsame.origin]
  exact (hfollows.congr fun q hq => hsame.2 q (by simp [hq])).walk_eq

/-- A settled header's companion is generated in every tree that looks the same on its trail, unless
a directory stands in the companion's place. -/
theorem generateFile_eq (hs : Settled c input output trail contents d m x) (hsame : SameAt s t trail)
    (hdir : s.entry? (d ++ [m]) ≠ some .dir) :
    generateFile s c input = (.ok (outcomeOf input output x), s.put (d ++ [m]) (companionEntry c x)) := by
  have hcleared : SameAt (s.put (d ++ [m]) none) t trail := hsame.put hs.free
  obtain ⟨raw, hraw⟩ := hs.read
  exact generateFile_of_locate h.companion (h.locate_output hs.output_open hs.short hsame) hdir
    (readExtraction_eq_ok.2 ⟨contents, raw, h.status_input hs.input_open hcleared, hraw⟩)
    (h.locate_output hs.output_open hs.short hcleared)

/-- The companion's path leads to the same place, or fails in the same way, in both trees. -/
theorem locate_output_eq (hsame : SameAt s t trail) :
    s.locate false output = t.locate false output := by
  by_cases hopen : IsOpenable output
  · rw [locate_of_isOpenable hopen, locate_of_isOpenable hopen, h.beside s hsame,
      h.beside t ⟨rfl, fun _ _ => rfl⟩]
  · exact locate_eq_of_not_isOpenable hopen

/-- If the companion's place is found, it is in the header's directory. -/
theorem eq_of_locate_output (hsame : SameAt s t trail) (hlocate : s.locate false output = .ok q) :
    q = d ++ [m] := by
  rw [locate_of_isOpenable (isOpenable_of_locate hlocate), h.beside s hsame] at hlocate
  split at hlocate
  · simp at hlocate
  · exact (Except.ok.inj hlocate).symm

/-- The way to the companion's place does not miss anything. -/
theorem locate_output_ne_notFound (hsame : SameAt s t trail) :
    s.locate false output ≠ .error .notFound := by
  intro hnot
  by_cases hopen : IsOpenable output
  · rw [locate_of_isOpenable hopen, h.beside s hsame] at hnot
    split at hnot <;> simp at hnot
  · have hfails : s.locate false output = .error .nulInName ∨
        s.locate false output = .error .nameTooLong := locate_of_not_isOpenable hopen h.output_ne
    rcases hfails with he | he <;> simp [hnot] at he

/-- Once the companion's place has been cleared, the header is found as before unless that place is
on its trail. -/
theorem status_cleared (hopen : IsOpenable input) (hsame : SameAt s t trail) :
    (s.put (d ++ [m]) none).status input =
      if d ++ [m] ∈ trail then .error .notFound else .ok (.file contents) := by
  have habsent : entry? (s.put (d ++ [m]) none) (d ++ [m]) = none := entry?_put_self (by simp)
  split
  · next hmem =>
    obtain ⟨seen, rfl, hfollows⟩ := h.reads
    have hbefore : Follows s true maxLinks (t.origin input) (steps input) seen (.ok place) :=
      hfollows.congr fun q hq => hsame.2 q (by simp [hq])
    -- The header's path leads to the place that has been cleared, or ends there too early.
    have hlost : (s.put (d ++ [m]) none).locate true input = .ok (d ++ [m]) ∨
        (s.put (d ++ [m]) none).locate true input = .error .notFound := by
      rw [locate_of_isOpenable hopen, origin_put, hsame.origin]
      by_cases hseen : d ++ [m] ∈ seen
      · obtain ⟨seen', result', hmem', hafter⟩ := hbefore.put_none hseen
        rw [hafter.walk_eq]
        exact hafter.of_absent hmem' habsent
      · obtain rfl : d ++ [m] = place := by simpa [hseen] using hmem
        have hafter : Follows (s.put (d ++ [m]) none) true maxLinks (t.origin input) (steps input)
            seen (.ok (d ++ [m])) :=
          hbefore.congr fun q hq => entry?_put_of_ne (by rintro rfl; exact hseen hq)
        exact .inl hafter.walk_eq
    rcases hlost with hlocate | hlocate
    · simp [status, hlocate, habsent, bind, Except.bind, throw, throwThe, MonadExceptOf.throw]
    · simp [status, hlocate, bind, Except.bind]
  · next hfree => exact h.status_input hopen (hsame.put hfree)

/-- If the companion's place can be cleared, what becomes of the header is what is read afterwards. -/
theorem generateFile_cleared (hsame : SameAt s t trail)
    (hlocate : s.locate false output = .ok (d ++ [m])) (hdir : s.entry? (d ++ [m]) ≠ some .dir) :
    (generateFile s c input).1 =
      (readExtraction (s.put (d ++ [m]) none) input).map (outcomeOf input output) := by
  cases hread : readExtraction (s.put (d ++ [m]) none) input with
  | error e =>
    simp only [generateFile, h.companion, removeStale_of_locate hlocate hdir, hread]
    rfl
  | ok x =>
    -- The header has been found, so its trail does not come by the cleared place.
    obtain ⟨contents', raw, hstatus, -⟩ := readExtraction_eq_ok.1 hread
    have hfree : d ++ [m] ∉ trail := by
      intro hmem
      obtain ⟨q, hq, -⟩ := status_eq_ok.1 hstatus
      rw [h.status_cleared (isOpenable_of_locate hq) hsame, if_pos hmem] at hstatus
      simp at hstatus
    have hlast : (s.put (d ++ [m]) none).locate false output = .ok (d ++ [m]) :=
      (h.locate_output_eq (hsame.put hfree)).trans ((h.locate_output_eq hsame).symm.trans hlocate)
    rw [generateFile_of_locate h.companion hlocate hdir hread hlast]
    rfl

/-- If the companion's place cannot be cleared, that is the error. -/
theorem generateFile_not_cleared {e : FileError} (he : e ≠ .notFound)
    (hremove : s.removeFile output = .error e) :
    generateFile s c input = (.error (.file output e), s) := by
  have hstale : removeStale s output = .error e := by simp [removeStale, hremove, he]
  simp only [generateFile, h.companion, hstale]

/-- A header whose companion has once been generated is settled. -/
theorem settled (hsame : SameAt s t trail) (hok : (generateFile s c input).1 = .ok o) :
    s.entry? (d ++ [m]) ≠ some .dir ∧ ∃ x, Settled c input output trail contents d m x := by
  rcases removeStale_cases s output with ⟨t₀, -, hcleared⟩ | ⟨e, he, hremove, -⟩
  · cases hcleared with
    | unreachable hnowhere => exact absurd hnowhere (h.locate_output_ne_notFound hsame)
    | removed hlocate hdir =>
      obtain rfl := h.eq_of_locate_output hsame hlocate
      rw [h.generateFile_cleared hsame hlocate hdir] at hok
      cases hread : readExtraction (s.put (d ++ [m]) none) input with
      | error e => simp [hread, Except.map] at hok
      | ok x =>
        obtain ⟨contents', raw, hstatus, hraw⟩ := readExtraction_eq_ok.1 hread
        obtain ⟨q, hq, -⟩ := status_eq_ok.1 hstatus
        have hinput := isOpenable_of_locate hq
        have houtput := isOpenable_of_locate hlocate
        have hshort : Text.size m ≤ maxNameSize := by
          rw [locate_of_isOpenable houtput, h.beside s hsame] at hlocate
          split at hlocate
          · simp at hlocate
          · omega
        rw [h.status_cleared hinput hsame] at hstatus
        split at hstatus
        · simp at hstatus
        · next hfree =>
          obtain rfl : contents = contents' := by simpa using hstatus
          exact ⟨hdir, x, hinput, houtput, hshort, hfree, raw, hraw⟩
  · rw [h.generateFile_not_cleared he hremove] at hok
    simp at hok

end Site

end HeaderReflection
