/-
  HeaderReflection.Proofs.Files.Effect

  What the generation of one companion does to the tree. The old companion is
  removed first, as an entry of its directory, and what is read and written
  afterwards cannot have been at its place. So the new companion stands where
  the old one stood, and the header reads as it did before.
-/
import HeaderReflection.Generation
import HeaderReflection.Proofs.Files.Following

namespace HeaderReflection

open FileTree

variable {t t₀ t' : FileTree} {p input output : Path} {place q : Place} {e : Option Entry}
variable {c : Config} {contents : ByteArray} {x : Extraction} {followLast : Bool}

namespace FileTree

/-! ## Locations -/

/-- The entry that a path names, which is a link if a link stands there. -/
def lookup (t : FileTree) (p : Path) : Option Entry :=
  match t.locate false p with
  | .ok place => t.entry? place
  | .error _ => none

/-- Where a path starts. -/
def origin (t : FileTree) (p : Path) : Place :=
  if p.isAbsolute then [] else t.workDir

@[simp] theorem origin_put : (t.put place e).origin p = t.origin p := by
  simp [origin]

/-- Can the path be asked for? -/
def IsOpenable (p : Path) : Prop :=
  '\x00' ∉ p ∧ p ≠ [] ∧ Text.size p < pathSizeLimit

instance (p : Path) : Decidable (IsOpenable p) :=
  inferInstanceAs (Decidable (_ ∧ _ ∧ _))

theorem locate_of_isOpenable (h : IsOpenable p) :
    t.locate followLast p = t.walk followLast maxLinks (t.origin p) (steps p) := by
  obtain ⟨hnul, hempty, hsize⟩ := h
  rw [locate, if_neg (by simpa using hnul), if_neg (by simpa using hempty), if_neg (by omega), origin]

/-- A path leads where its names lead from where it starts. -/
theorem locate_of_follows {seen : List Place} {result : Except FileError Place}
    (hopen : IsOpenable p)
    (h : Follows t followLast maxLinks (t.origin p) (steps p) seen result) :
    t.locate followLast p = result := by
  rw [locate_of_isOpenable hopen, h.walk_eq]

/-- A dot leads to where relative paths start. -/
theorem locate_dot : t.locate followLast ".".toList = .ok t.workDir := by
  have hsteps : steps ".".toList = [['.']] := by decide +kernel
  have hrelative : Path.isAbsolute ".".toList = false := by decide +kernel
  have hfollows : Follows t followLast maxLinks t.workDir [['.']] [] (.ok t.workDir) := .stay .done
  have horigin : t.origin ".".toList = t.workDir := by rw [origin, hrelative, if_neg (by simp)]
  rw [locate_of_isOpenable (by decide), horigin, hsteps, hfollows.walk_eq]

/-- A name behind a dot is looked up where relative paths start. -/
theorem locate_of_dotted {name : Text} {result : Except FileError Place} (hopen : IsOpenable p)
    (hrelative : p.isAbsolute = false) (hsteps : steps p = [['.'], name]) (hname : IsLookedUp name)
    (hend : ending? followLast maxLinks (t.workDir ++ [name]) []
      ( t.entry? (t.workDir ++ [name])) = some result) : t.locate followLast p = result := by
  have hfollows : Follows t followLast maxLinks t.workDir [['.'], name] [t.workDir ++ [name]] result :=
    .stay (.stop hname hend)
  have horigin : t.origin p = t.workDir := by rw [origin, hrelative, if_neg (by simp)]
  rw [locate_of_isOpenable hopen, horigin, hsteps, hfollows.walk_eq]

theorem locate_of_not_isOpenable (h : ¬ IsOpenable p) (hp : p ≠ []) :
    t.locate followLast p = .error .nulInName ∨ t.locate followLast p = .error .nameTooLong := by
  simp only [locate]
  split
  · exact .inl rfl
  · next hnul =>
    refine .inr ?_
    rw [if_neg (by simpa using hp), if_pos]
    by_contra hsize
    exact h ⟨by simpa using hnul, hp, by omega⟩

/-- A path that cannot be asked for fails in the same way in every tree. -/
theorem locate_eq_of_not_isOpenable (h : ¬ IsOpenable p) :
    t.locate followLast p = t'.locate followLast p := by
  simp only [locate]
  split
  · rfl
  split
  · rfl
  split
  · rfl
  · next hnul hempty hsize =>
    exact absurd ⟨by simpa using hnul, by simpa using hempty, by omega⟩ h

theorem isOpenable_of_locate (h : t.locate followLast p = .ok place) : IsOpenable p := by
  by_contra hopen
  by_cases hp : p = []
  · subst hp
    simp [locate] at h
  · have hfails : t.locate followLast p = .error .nulInName ∨
        t.locate followLast p = .error .nameTooLong := locate_of_not_isOpenable hopen hp
    rcases hfails with he | he <;> simp [he] at h

/-- A link at the end makes a difference only if there is one. -/
theorem locate_follow_last (hend : ∀ place target,
    t.locate false p = .ok place → t.entry? place ≠ some (.link target)) :
    t.locate true p = t.locate false p := by
  simp only [locate] at hend ⊢
  split
  · rfl
  split
  · rfl
  split
  · rfl
  · next hnul hempty hsize =>
    simp only [if_neg hnul, if_neg hempty, if_neg hsize] at hend
    exact walk_follow_last hend

/-- Once an entry has been taken away, a path that still leads to some entry did not come by it. -/
theorem locate_put_of_status (hplace : place ≠ [])
    (h : (t.put place none).locate true p = .ok q)
    (hq : entry? (t.put place none) q ≠ none) :
    t.locate true p = .ok q ∧ t.entry? q = entry? (t.put place none) q := by
  have habsent : entry? (t.put place none) place = none := entry?_put_self hplace
  have hopen := isOpenable_of_locate h
  rw [locate_of_isOpenable hopen, origin_put] at h
  rw [locate_of_isOpenable hopen]
  obtain ⟨seen, hseen⟩ := exists_follows (t.put place none) true maxLinks (t.origin p) (steps p)
  rw [h] at hseen
  have hne : place ≠ q := by
    rintro rfl
    exact hq habsent
  have hnot : place ∉ seen := by
    intro hmem
    rcases hseen.of_absent hmem habsent with hok | herror
    · exact hne (by simpa using hok.symm)
    · simp at herror
  refine ⟨?_, (entry?_put_of_ne hne).symm⟩
  exact (hseen.congr fun r hr => (entry?_put_of_ne (by rintro rfl; exact hnot hr)).symm).walk_eq

/-- Once the entry that a path names has been taken away, the path leads to its place or, if it came
by that entry before the end, nowhere. -/
theorem locate_put_none (h : t.locate false p = .ok place) (hplace : place ≠ []) :
    (t.put place none).locate false p = .ok place ∨
      (t.put place none).locate false p = .error .notFound := by
  have habsent : entry? (t.put place none) place = none := entry?_put_self hplace
  have hopen := isOpenable_of_locate h
  rw [locate_of_isOpenable hopen] at h
  rw [locate_of_isOpenable hopen, origin_put]
  obtain ⟨seen, hseen⟩ := exists_follows (t.put place none) false maxLinks (t.origin p) (steps p)
  by_cases hmem : place ∈ seen
  · exact hseen.of_absent hmem habsent
  · have hbefore : Follows t false maxLinks (t.origin p) (steps p) seen _ :=
      hseen.congr fun q hq => (entry?_put_of_ne (by rintro rfl; exact hmem hq)).symm
    exact .inl (hbefore.walk_eq.symm.trans h)

/-- A path that leads to an absent entry leads there too once a file is put in its place. -/
theorem locate_put_file (h : t.locate followLast p = .ok place)
    (hplace : place ≠ []) (habsent : t.entry? place = none) :
    (t.put place (some (.file contents))).locate followLast p = .ok place := by
  have hopen := isOpenable_of_locate h
  rw [locate_of_isOpenable hopen] at h
  rw [locate_of_isOpenable hopen, origin_put]
  obtain ⟨seen, hseen⟩ := exists_follows t followLast maxLinks (t.origin p) (steps p)
  rw [h] at hseen
  exact (hseen.put_file hplace habsent contents).walk_eq

/-- A file is written where the path leads to, unless that is a directory. -/
theorem writeFile_of_locate (h : t.locate true p = .ok place) (hdir : t.entry? place ≠ some .dir) :
    t.writeFile p contents = .ok (t.put place (some (.file contents))) := by
  simp only [writeFile, h, bind, Except.bind]
  rfl

theorem writeFile_eq_ok (h : t.writeFile p contents = .ok t') :
    ∃ place, t.locate true p = .ok place ∧ t.entry? place ≠ some .dir ∧
      t' = t.put place (some (.file contents)) := by
  cases hlocate : t.locate true p with
  | error e => simp [writeFile, hlocate, bind, Except.bind] at h
  | ok place =>
    simp only [writeFile, hlocate, bind, Except.bind] at h
    split at h
    · simp [throw, throwThe, MonadExceptOf.throw] at h
    · next hdir => exact ⟨place, rfl, hdir, by simpa [pure, Except.pure, put] using h.symm⟩

theorem status_eq_ok {e : Entry} :
    t.status p = .ok e ↔ ∃ place, t.locate true p = .ok place ∧ t.entry? place = some e := by
  rw [status]
  cases h : t.locate true p with
  | error => simp [bind, Except.bind]
  | ok place => cases he : t.entry? place <;> simp [bind, Except.bind, he, pure, Except.pure]

theorem status_put_none (hplace : place ≠ []) {e : Entry}
    (h : (t.put place none).status p = .ok e) : t.status p = .ok e := by
  obtain ⟨q, hq, he⟩ := status_eq_ok.1 h
  obtain ⟨hlocate, hsame⟩ := locate_put_of_status hplace hq (by simp [he])
  exact status_eq_ok.2 ⟨q, hlocate, hsame.trans he⟩

end FileTree

/-! ## Reading -/

/-- A header is read through what its path leads to. -/
theorem readExtraction_congr (h : t.status p = t'.status p) :
    readExtraction t p = readExtraction t' p := by
  have hfile : t.isFile p = t'.isFile p := by rw [isFile, isFile, h]
  have htext : t.readText p = t'.readText p := by rw [readText, readText, readBytes, readBytes, h]
  rw [readExtraction, readExtraction, hfile, htext]

/-- Of a file that holds a text, what that text declares is read, or what is wrong with it. -/
theorem readExtraction_of_status {raw : Text} (hstatus : t.status p = .ok (.file contents))
    (hdecode : Text.decode? contents = some raw) :
    readExtraction t p = (extractSource raw).mapError (.parse p) := by
  have hbytes : t.readBytes p = .ok contents := by
    simp [readBytes, hstatus, bind, Except.bind, pure, Except.pure]
  simp [readExtraction, isFile, readText, hstatus, hbytes, hdecode, bind, Except.bind, pure,
    Except.pure]

/-- A header is read from the text of the file that its path leads to. -/
theorem readExtraction_eq_ok : readExtraction t p = .ok x ↔ ∃ contents raw,
    t.status p = .ok (.file contents) ∧ Text.decode? contents = some raw ∧ extractSource raw = .ok x := by
  cases hstatus : t.status p with
  | error e => simp [readExtraction, isFile, hstatus]
  | ok e =>
    cases e with
    | file contents =>
      cases hdecode : Text.decode? contents with
      | none =>
        simp [readExtraction, isFile, readText, readBytes, hstatus, hdecode, bind, Except.bind, pure,
          Except.pure, throw, throwThe, MonadExceptOf.throw]
      | some raw =>
        rw [readExtraction_of_status hstatus hdecode]
        cases hx : extractSource raw <;> simp [hdecode, hx, Except.mapError]
    | dir => simp [readExtraction, isFile, hstatus]
    | link target => simp [readExtraction, isFile, hstatus]

/-- What can be read once an entry has been taken away was read the same before. -/
theorem readExtraction_put_none (hplace : place ≠ [])
    (h : readExtraction (t.put place none) p = .ok x) : readExtraction t p = .ok x := by
  obtain ⟨contents, -, hstatus, -⟩ := readExtraction_eq_ok.1 h
  rw [readExtraction_congr ((status_put_none hplace hstatus).trans hstatus.symm), h]

/-- The tree is left without the entry that the path names. -/
inductive Cleared (t : FileTree) (p : Path) : FileTree → Prop
  /-- The path names no entry of any directory. -/
  | unreachable (h : t.locate false p = .error .notFound) : Cleared t p t
  | removed {place : Place} (h : t.locate false p = .ok place)
      (hdir : t.entry? place ≠ some .dir) : Cleared t p (t.put place none)

theorem ne_nil_of_entry?_ne_dir (h : t.entry? place ≠ some .dir) : place ≠ [] := by
  rintro rfl
  exact h rfl

/-- What a path names is taken away, if it is no directory; it need not be there. -/
theorem removeStale_of_locate (hlocate : t.locate false p = .ok place)
    (hdir : t.entry? place ≠ some .dir) : removeStale t p = .ok (t.put place none) := by
  cases hentry : t.entry? place with
  | none =>
    have hremove : t.removeFile p = .error .notFound := by
      simp [removeFile, hlocate, hentry, bind, Except.bind, throw, throwThe, MonadExceptOf.throw]
    have hsame : t.put place none = t :=
      put_eq_self (by rw [← entry?_eq_of_ne_nil (ne_nil_of_entry?_ne_dir hdir), hentry])
    simp [removeStale, hremove, hsame]
  | some e =>
    have hremove : t.removeFile p = .ok (t.put place none) := by
      cases e <;> simp_all [removeFile, put, bind, Except.bind, pure, Except.pure]
    simp [removeStale, hremove]

/-- Removing what a path names, which need not be there, clears the path or changes nothing. -/
theorem removeStale_cases (t : FileTree) (p : Path) :
    (∃ t₀, removeStale t p = .ok t₀ ∧ Cleared t p t₀) ∨
      ∃ e, e ≠ .notFound ∧ t.removeFile p = .error e ∧ removeStale t p = .error e := by
  cases hlocate : t.locate false p with
  | error e =>
    have hremove : t.removeFile p = .error e := by simp [removeFile, hlocate, bind, Except.bind]
    by_cases he : e = .notFound
    · subst he
      exact .inl ⟨t, by simp [removeStale, hremove], .unreachable hlocate⟩
    · exact .inr ⟨e, he, hremove, by simp [removeStale, hremove, he]⟩
  | ok place =>
    by_cases hdir : t.entry? place = some .dir
    · have hremove : t.removeFile p = .error .isDirectory := by
        simp [removeFile, hlocate, hdir, bind, Except.bind, throw, throwThe, MonadExceptOf.throw]
      exact .inr ⟨_, by simp, hremove, by simp [removeStale, hremove]⟩
    · exact .inl ⟨_, removeStale_of_locate hlocate hdir, .removed hlocate hdir⟩

namespace Cleared

/-- Nothing but the named entry changes. -/
theorem frame (h : Cleared t p t₀) :
    t₀.workDir = t.workDir ∧
      ∀ q, t.locate false p ≠ .ok q → t₀.entries[q]? = t.entries[q]? := by
  cases h with
  | unreachable => exact ⟨rfl, fun _ _ => rfl⟩
  | removed hlocate =>
    refine ⟨workDir_put, fun q hq => ?_⟩
    rw [getElem?_put, if_neg]
    rintro rfl
    exact hq hlocate

/-- Afterwards the path names no entry, and nothing stands where it led to. -/
theorem absent (h : Cleared t p t₀) :
    t₀.lookup p = none ∧ ∀ q, t.locate false p = .ok q → t₀.entry? q = none := by
  cases h with
  | unreachable hlocate => simp [lookup, hlocate]
  | @removed place hlocate hdir =>
    have habsent : entry? (t.put place none) place = none :=
      entry?_put_self (ne_nil_of_entry?_ne_dir hdir)
    refine ⟨?_, fun q hq => ?_⟩
    · rcases locate_put_none hlocate (ne_nil_of_entry?_ne_dir hdir) with hok | herror
      · simp [lookup, hok, habsent]
      · simp [lookup, herror]
    · obtain rfl : place = q := by simpa [hlocate] using hq
      exact habsent

/-- What is read afterwards could be read before. -/
theorem readExtraction (h : Cleared t p t₀) (hread : readExtraction t₀ input = .ok x) :
    HeaderReflection.readExtraction t input = .ok x := by
  cases h with
  | unreachable => exact hread
  | removed _ hdir => exact readExtraction_put_none (ne_nil_of_entry?_ne_dir hdir) hread

/-- What is written afterwards takes the place of the named entry, and the path names it. -/
theorem writeFile (h : Cleared t p t₀) (hwrite : t₀.writeFile p contents = .ok t') :
    ∃ place, t.locate false p = .ok place ∧ t' = t.put place (some (.file contents)) ∧
      t'.locate false p = .ok place ∧ place ≠ [] := by
  obtain ⟨q, hq, -, rfl⟩ := writeFile_eq_ok hwrite
  -- No link is left at the end of the path that could lead away from it.
  have hlast : t₀.locate true p = t₀.locate false p :=
    locate_follow_last fun r target hr he => by
      cases h with
      | unreachable hlocate => simp [hlocate] at hr
      | removed hlocate hdir =>
        rcases locate_put_none hlocate (ne_nil_of_entry?_ne_dir hdir) with hok | herror
        · obtain rfl : _ = r := by simpa [hok] using hr
          simp [entry?_put_self (ne_nil_of_entry?_ne_dir hdir)] at he
        · simp [herror] at hr
  rw [hlast] at hq
  cases h with
  | unreachable hlocate => simp [hlocate] at hq
  | @removed place hlocate hdir =>
    have hplace := ne_nil_of_entry?_ne_dir hdir
    rcases locate_put_none hlocate hplace with hok | herror
    · obtain rfl : place = q := by simpa [hok] using hq
      exact ⟨place, hlocate, put_put _, locate_put_file hok hplace (entry?_put_self hplace), hplace⟩
    · simp [herror] at hq

end Cleared

/-! ## A generation that goes well -/

/-- The outcome for a header that declares `x`. -/
def outcomeOf (input output : Path) (x : Extraction) : Outcome :=
  if x.isEmpty then .skipped input else .generated input output x

/-- What stands in the place of the companion afterwards. -/
def companionEntry (c : Config) (x : Extraction) : Option Entry :=
  if x.isEmpty then none else some (.file (Text.encode (Companion.render c.sentinels x)))

theorem companionEntry_ne_dir : companionEntry c x ≠ some .dir := by
  rw [companionEntry]
  split <;> simp

/-- If the companion's place is found and the header can be read, the companion is generated there. -/
theorem generateFile_of_locate (hname : c.companionPath? input = some output)
    (hlocate : t.locate false output = .ok place) (hdir : t.entry? place ≠ some .dir)
    (hread : readExtraction (t.put place none) input = .ok x)
    (hlast : (t.put place none).locate false output = .ok place) :
    generateFile t c input = (.ok (outcomeOf input output x), t.put place (companionEntry c x)) := by
  simp only [generateFile, hname, removeStale_of_locate hlocate hdir, hread]
  by_cases hempty : x.isEmpty
  · simp [outcomeOf, companionEntry, hempty]
  · have habsent : entry? (t.put place none) place = none :=
      entry?_put_self (ne_nil_of_entry?_ne_dir hdir)
    have hlast' : (t.put place none).locate true output = .ok place := by
      rw [locate_follow_last, hlast]
      intro q target hq
      obtain rfl : place = q := by simpa [hlast] using hq
      simp [habsent]
    rw [writeFile_of_locate hlast' (by simp [habsent])]
    simp [outcomeOf, companionEntry, hempty]

/-- A header without text has no companion. -/
theorem generateFile_of_empty {o : Path} (hname : c.companionPath? input = some o)
    (hlocate : t.locate false o = .ok place) (hdir : t.entry? place ≠ some .dir)
    (hstatus : (t.put place none).status input = .ok (.file "".toUTF8))
    (hlast : (t.put place none).locate false o = .ok place) :
    generateFile t c input = (.ok (.skipped input), t.put place none) := by
  have hdecode : Text.decode? "".toUTF8 = some [] := by decide +kernel
  have hextract : extractSource [] = .ok ⟨[], []⟩ := by decide +kernel
  have hread := readExtraction_eq_ok.2 ⟨_, _, hstatus, hdecode, hextract⟩
  exact generateFile_of_locate hname hlocate hdir hread hlast

/-! ## One companion -/

/-- The ways in which the generation of a companion can go, with the tree that it leaves. -/
inductive Generates (t : FileTree) (c : Config) (input : Path) :
    Except RunError Outcome → FileTree → Prop
  | wrongExtension (hname : c.companionPath? input = none) :
      Generates t c input (.error (.wrongExtension input c.headerEnding)) t
  | notRemoved {output : Path} {e : FileError} (hname : c.companionPath? input = some output)
      (he : e ≠ .notFound) (hremove : t.removeFile output = .error e) :
      Generates t c input (.error (.file output e)) t
  | notRead {output : Path} {t₀ : FileTree} {e : RunError}
      (hname : c.companionPath? input = some output) (hcleared : Cleared t output t₀)
      (hread : readExtraction t₀ input = .error e) : Generates t c input (.error e) t₀
  | skipped {output : Path} {t₀ : FileTree} {x : Extraction}
      (hname : c.companionPath? input = some output) (hcleared : Cleared t output t₀)
      (hread : readExtraction t₀ input = .ok x) (hempty : x.isEmpty) :
      Generates t c input (.ok (.skipped input)) t₀
  | notWritten {output : Path} {t₀ : FileTree} {x : Extraction} {e : FileError}
      (hname : c.companionPath? input = some output) (hcleared : Cleared t output t₀)
      (hread : readExtraction t₀ input = .ok x) (hempty : ¬ x.isEmpty)
      (hwrite : t₀.writeFile output (Text.encode (Companion.render c.sentinels x)) = .error e) :
      Generates t c input (.error (.file output e)) t₀
  | generated {output : Path} {t₀ t' : FileTree} {x : Extraction}
      (hname : c.companionPath? input = some output) (hcleared : Cleared t output t₀)
      (hread : readExtraction t₀ input = .ok x) (hempty : ¬ x.isEmpty)
      (hwrite : t₀.writeFile output (Text.encode (Companion.render c.sentinels x)) = .ok t') :
      Generates t c input (.ok (.generated input output x)) t'

/-- The generation of a companion goes in one of these ways. -/
theorem generateFile_generates (t : FileTree) (c : Config) (input : Path) :
    Generates t c input (generateFile t c input).1 (generateFile t c input).2 := by
  cases hname : c.companionPath? input with
  | none => simpa [generateFile, hname] using Generates.wrongExtension hname
  | some output =>
    rcases removeStale_cases t output with ⟨t₀, hstale, hcleared⟩ | ⟨e, he, hremove, hstale⟩
    · cases hread : readExtraction t₀ input with
      | error e => simpa [generateFile, hname, hstale, hread] using .notRead hname hcleared hread
      | ok x =>
        by_cases hempty : x.isEmpty
        · simpa [generateFile, hname, hstale, hread, hempty] using
            .skipped hname hcleared hread hempty
        · cases hwrite :
            t₀.writeFile output (Text.encode (Companion.render c.sentinels x)) with
          | error e =>
            simpa [generateFile, hname, hstale, hread, hempty, hwrite] using
              .notWritten hname hcleared hread hempty hwrite
          | ok t' =>
            simpa [generateFile, hname, hstale, hread, hempty, hwrite] using
              .generated hname hcleared hread hempty hwrite
    · simpa [generateFile, hname, hstale] using .notRemoved hname he hremove

/-- What is previewed is what a reading of the header gives. -/
theorem previewFile_eq_ok (hname : c.companionPath? input = some output)
    (hread : readExtraction t input = .ok x) : previewFile t c input =
      .ok (if x.isEmpty then none else some (Companion.render c.sentinels x)) := by
  simp [previewFile, hname, hread, bind, Except.bind, pure, Except.pure]

/-- At most the entry that the companion's path names changes, whatever becomes of the header. -/
theorem Generates.frame {r : Except RunError Outcome} (h : Generates t c input r t') :
    t'.workDir = t.workDir ∧ ∀ place, t'.entries[place]? ≠ t.entries[place]? →
      ∃ output, c.companionPath? input = some output ∧ t.locate false output = .ok place := by
  have of_cleared : ∀ {output : Path}, c.companionPath? input = some output →
      Cleared t output t' → t'.workDir = t.workDir ∧
        ∀ place, t'.entries[place]? ≠ t.entries[place]? →
          ∃ output, c.companionPath? input = some output ∧ t.locate false output = .ok place := by
    intro output hname hcleared
    refine ⟨hcleared.frame.1, fun place hplace => ⟨output, hname, ?_⟩⟩
    by_contra hother
    exact hplace (hcleared.frame.2 place hother)
  cases h with
  | wrongExtension => exact ⟨rfl, fun _ h => absurd rfl h⟩
  | notRemoved => exact ⟨rfl, fun _ h => absurd rfl h⟩
  | notRead hname hcleared => exact of_cleared hname hcleared
  | skipped hname hcleared => exact of_cleared hname hcleared
  | notWritten hname hcleared => exact of_cleared hname hcleared
  | @generated output t₀ _ x hname hcleared _ _ hwrite =>
    obtain ⟨place, hlocate, rfl, -, -⟩ := hcleared.writeFile hwrite
    refine ⟨workDir_put, fun q hq => ⟨output, hname, ?_⟩⟩
    rw [getElem?_put] at hq
    split at hq
    · next hplace => rw [hlocate, hplace]
    · exact absurd rfl hq

theorem Config.companionPath?_default_a :
    Config.default.companionPath? "./a.h".toList = some "./a_generated.h".toList := by
  decide +kernel

theorem Config.companionPath?_default_b :
    Config.default.companionPath? "./b.h".toList = some "./b_generated.h".toList := by
  decide +kernel

/-- A header `a.h` that holds no text, where relative paths start, is skipped. -/
theorem generateFile_of_empty_header (hwork : t.workDir = [])
    (hheader : t.entry? ["a.h".toList] = some (.file "".toUTF8))
    (hdir : t.entry? ["a_generated.h".toList] ≠ some .dir) :
    generateFile t .default "./a.h".toList =
      (.ok (.skipped "./a.h".toList), t.put ["a_generated.h".toList] none) := by
  have hlocate : ∀ s : FileTree, s.workDir = [] → s.entry? ["a_generated.h".toList] ≠ some .dir →
      s.locate false "./a_generated.h".toList = .ok ["a_generated.h".toList] := by
    intro s hs hsdir
    have hsteps : steps "./a_generated.h".toList = [['.'], "a_generated.h".toList] := by
      decide +kernel
    refine locate_of_dotted (by decide) (by decide +kernel) hsteps (by decide) ?_
    rw [hs]
    exact ending?_of_ne_dir hsdir
  have hentry : entry? (t.put ["a_generated.h".toList] none) ["a.h".toList] =
      some (.file "".toUTF8) := by
    rw [entry?_put_of_ne (by decide), hheader]
  have hfound : (t.put ["a_generated.h".toList] none).locate true "./a.h".toList =
      .ok ["a.h".toList] := by
    have hsteps : steps "./a.h".toList = [['.'], "a.h".toList] := by decide +kernel
    refine locate_of_dotted (by decide) (by decide +kernel) hsteps (by decide) ?_
    rw [workDir_put, hwork, List.nil_append, hentry]
    rfl
  refine generateFile_of_empty Config.companionPath?_default_a (hlocate t hwork hdir) hdir
    (status_eq_ok.2 ⟨_, hfound, hentry⟩) (hlocate _ (workDir_put.trans hwork) ?_)
  rw [entry?_put_self (by decide)]
  exact nofun

/-- A header that declares nothing, with an old companion, and one that declares an enum, with a link to
it in the place of its companion. -/
def staleTree : FileTree where
  workDir := []
  entries := .ofList [(["a.h".toList], Entry.file "".toUTF8),
    (["a_generated.h".toList], Entry.file "b.h\n".toUTF8),
    (["b.h".toList], Entry.file "REFLECT_ENUM enum class A \x7bB\x7d;".toUTF8),
    (["b_generated.h".toList], Entry.link "b.h".toList)]

/-- The tree without the old companion of the header that declares nothing. -/
def clearedTree : FileTree :=
  staleTree.put ["a_generated.h".toList] none

/-- What the other header declares. -/
def staleEnum : Extraction :=
  ⟨[], [⟨"A".toList, [], ["B".toList]⟩]⟩

/-- The tree with the companions as they are generated. -/
def settledTree : FileTree :=
  clearedTree.put ["b_generated.h".toList] (companionEntry .default staleEnum)

theorem generateFile_staleTree : generateFile staleTree .default "./a.h".toList =
    (.ok (.skipped "./a.h".toList), clearedTree) :=
  generateFile_of_empty_header rfl (by decide +kernel) (by decide +kernel)

/-- The companion's path names the link, not what it leads to. -/
theorem locate_clearedTree :
    clearedTree.locate false "./b_generated.h".toList = .ok ["b_generated.h".toList] :=
  locate_of_follows (by decide) (.stay (.stop (by decide) (by decide +kernel)))

theorem generateFile_clearedTree : generateFile clearedTree .default "./b.h".toList =
    (.ok (.generated "./b.h".toList "./b_generated.h".toList staleEnum), settledTree) := by
  have hheader : (clearedTree.put ["b_generated.h".toList] none).locate true "./b.h".toList =
      .ok ["b.h".toList] :=
    locate_of_follows (by decide) (.stay (.stop (by decide) (by decide +kernel)))
  have hlast : (clearedTree.put ["b_generated.h".toList] none).locate false
      "./b_generated.h".toList = .ok ["b_generated.h".toList] :=
    locate_of_follows (by decide) (.stay (.stop (by decide) (by decide +kernel)))
  have hdecode : Text.decode? "REFLECT_ENUM enum class A \x7bB\x7d;".toUTF8 =
      some "REFLECT_ENUM enum class A \x7bB\x7d;".toList := by
    decide +kernel
  have hextract : extractSource "REFLECT_ENUM enum class A \x7bB\x7d;".toList = .ok staleEnum := by
    decide +kernel
  have hread : readExtraction (clearedTree.put ["b_generated.h".toList] none) "./b.h".toList =
      .ok staleEnum :=
    readExtraction_eq_ok.2
      ⟨_, _, status_eq_ok.2 ⟨_, hheader, by decide +kernel⟩, hdecode, hextract⟩
  exact generateFile_of_locate Config.companionPath?_default_b locate_clearedTree (by decide +kernel)
    hread hlast

end HeaderReflection
