/-
  HeaderReflection.Proofs.Files.Naming

  Where the companions of an accepted configuration lie. A suffix that is one
  name keeps a companion beside its header under a name that no header has. A
  suffix with a slash does not, and it is accepted all the same; so is an
  extension of which nothing is left when its points are dropped.
-/
import HeaderReflection.Config.Reader
import HeaderReflection.Proofs.Files.Directory
import HeaderReflection.Proofs.Stream

namespace HeaderReflection

open FileTree HeaderReflection.Path

variable {c c' : Config} {table : Toml.Table} {key : ConfigKey} {v : Toml.Value} {s : Text}
variable {p q output r : Path} {name m stem : Text} {before segs : List Text}

namespace Config

/-! ## Accepted tables -/

theorem nonEmptyString_eq_ok : nonEmptyString key v = .ok s ↔ v = .string s ∧ s ≠ [] := by
  cases v with
  | string s' =>
    rw [nonEmptyString]
    split
    · next hempty =>
      obtain rfl : s' = [] := by simpa using hempty
      simp only [reduceCtorEq, Toml.Value.string.injEq, false_iff, not_and, not_not]
      exact Eq.symm
    · next hne =>
      simp only [Except.ok.injEq, Toml.Value.string.injEq]
      refine ⟨?_, And.left⟩
      rintro rfl
      exact ⟨rfl, by simpa using hne⟩
  | _ => simp [nonEmptyString]

/-- What the value of a key does not change stays as it is. -/
theorem setFrom_keeps {α : Type} (f : Config → α)
    {set : Config → Toml.Value → Except ConfigError Config}
    (hset : ∀ c v c', set c v = .ok c' → f c' = f c) (h : setFrom table key set c = .ok c') :
    f c' = f c := by
  rw [setFrom] at h
  split at h
  · exact hset _ _ _ h
  · rw [Except.ok.inj h]

/-- A key that is set by a text has one that is not empty, and if it is not there nothing changes. -/
theorem exists_of_setFrom {set : Config → Text → Config}
    (h : setFrom table key (fun c v => do return set c (← nonEmptyString key v)) c = .ok c') :
    (table.get? key.spelling = none ∧ c' = c) ∨
      ∃ s, s ≠ [] ∧ table.get? key.spelling = some (.string s) ∧ c' = set c s := by
  rw [setFrom] at h
  split at h
  · next v hv =>
    obtain ⟨s, hs, hc⟩ := bind_eq_ok.1 h
    obtain ⟨rfl, hne⟩ := nonEmptyString_eq_ok.1 hs
    exact .inr ⟨s, hne, hv, (Except.ok.inj hc).symm⟩
  · next hv => exact .inl ⟨hv, (Except.ok.inj h).symm⟩

/-- The texts that an accepted table sets the two parts of a name to. -/
theorem exists_of_ofTable (h : ofTable table = .ok c) :
    ((table.get? ConfigKey.extension.spelling = none ∧ c.extension = default.extension) ∨
      ∃ s, s ≠ [] ∧ table.get? ConfigKey.extension.spelling = some (.string s) ∧
        c.extension = s.dropWhile (· == '.')) ∧
    ((table.get? ConfigKey.generatedSuffix.spelling = none ∧
        c.generatedSuffix = default.generatedSuffix) ∨
      ∃ s, s ≠ [] ∧ table.get? ConfigKey.generatedSuffix.spelling = some (.string s) ∧
        c.generatedSuffix = s) := by
  simp only [ofTable, bind_eq_ok] at h
  obtain ⟨c₁, h₁, c₂, h₂, c₃, h₃, h₄⟩ := h
  -- The sentinels and the directories to skip come last, and change neither part.
  have hskip : (c.extension, c.generatedSuffix) = (c₃.extension, c₃.generatedSuffix) := by
    refine setFrom_keeps (fun c => (c.extension, c.generatedSuffix)) (fun c v c' hset => ?_) h₄
    obtain ⟨names, -, hc⟩ := bind_eq_ok.1 hset
    rw [← Except.ok.inj hc]
  have hsentinels : (c₃.extension, c₃.generatedSuffix) = (c₂.extension, c₂.generatedSuffix) := by
    refine setFrom_keeps (fun c => (c.extension, c.generatedSuffix)) (fun c v c' hset => ?_) h₃
    obtain ⟨names, -, hc⟩ := bind_eq_ok.1 hset
    rw [← Except.ok.inj hc]
  have hlater := hskip.trans hsentinels
  rw [Prod.mk.injEq] at hlater
  rw [hlater.1, hlater.2]
  have hextension := exists_of_setFrom h₁
  have hsuffix := exists_of_setFrom h₂
  constructor
  · have hsame : c₂.extension = c₁.extension := by
      rcases hsuffix with ⟨-, rfl⟩ | ⟨s, -, -, rfl⟩ <;> rfl
    rw [hsame]
    rcases hextension with ⟨hnone, rfl⟩ | ⟨s, hne, hsome, rfl⟩
    · exact .inl ⟨hnone, rfl⟩
    · exact .inr ⟨s, hne, hsome, rfl⟩
  · have hsame : c₁.generatedSuffix = default.generatedSuffix := by
      rcases hextension with ⟨-, rfl⟩ | ⟨s, -, -, rfl⟩ <;> rfl
    rcases hsuffix with ⟨hnone, rfl⟩ | ⟨s, hne, hsome, rfl⟩
    · exact .inl ⟨hnone, hsame⟩
    · exact .inr ⟨s, hne, hsome, rfl⟩

/-- No point is in front of an accepted extension. -/
theorem head?_extension_ne (h : ofTable table = .ok c) : c.extension.head? ≠ some '.' := by
  rcases (exists_of_ofTable h).1 with ⟨-, heq⟩ | ⟨s, -, -, heq⟩
  · rw [heq]
    decide
  · intro hdot
    have := List.head?_dropWhile_not (· == '.') s
    rw [← heq, hdot] at this
    simp at this

theorem generatedSuffix_ne_nil (h : ofTable table = .ok c) : c.generatedSuffix ≠ [] := by
  rcases (exists_of_ofTable h).2 with ⟨-, heq⟩ | ⟨s, hne, -, rfl⟩
  · rw [heq]
    decide
  · exact hne

/-- An accepted extension is empty if it was written with points alone. -/
theorem extension_eq_nil_iff (h : ofTable table = .ok c) :
    c.extension = [] ↔ ∃ dots, table.get? ConfigKey.extension.spelling = some (.string dots) ∧
      ∀ d ∈ dots, d = '.' := by
  rcases (exists_of_ofTable h).1 with ⟨hnone, heq⟩ | ⟨s, -, hsome, heq⟩
  · rw [heq, hnone]
    simp [default]
  · rw [heq, hsome, List.dropWhile_eq_nil_iff]
    simp

end Config

/-! ## Paths with another name -/

namespace Path

/-- A path that ends with a name is split before it. -/
theorem split?_of_segments (h : segments p = segs ++ [m]) (hm : isRedundant m = false) :
    p.split? = some (if segs = [] then [] else ofSegments (trimSegments segs), m) := by
  cases segs with
  | nil =>
    have hne : m.isEmpty = false := by
      rw [isRedundant, Bool.or_eq_false_iff] at hm
      exact hm.1
    simp [split?, h, trimSegments, hne]
  | cons front rest =>
    have htrim : trimSegments (segments p) = (front :: rest) ++ [m] := by
      rw [h, List.cons_append, trimSegments_cons, List.rdropWhile_concat_neg _ _ _ (by simp [hm])]
    simp [split?, htrim]

/-- The parent of a path is cut into the segments in front of its name, less the redundant ones. -/
theorem segments_join_parent (hbefore : before ≠ []) (hslash : ∀ s ∈ before, '/' ∉ s)
    (hm : IsName m) :
    segments ((ofSegments (trimSegments before)).join m) = trimSegments before ++ [m] := by
  obtain ⟨front, rest, rfl⟩ := List.exists_cons_of_ne_nil hbefore
  have hseg : segments m = [m] := segments_of_not_mem hm.2.1
  by_cases hroot : trimSegments (front :: rest) = [[]]
  · rw [hroot]
    simp [ofSegments, join, hm.isAbsolute, segments_slash_cons, hseg]
  · have hmem : ∀ s ∈ trimSegments (front :: rest), '/' ∉ s := by
      intro s hs
      rw [trimSegments_cons, List.mem_cons] at hs
      refine hslash s (List.mem_cons.2 (hs.imp_right fun hs => ?_))
      exact (List.rdropWhile_prefix _ rest).subset hs
    have hsegs : segments (ofSegments (trimSegments (front :: rest))) =
        trimSegments (front :: rest) := by
      rw [ofSegments_of_ne hroot]
      exact segments_joinWith (by simp [trimSegments_cons]) hmem
    generalize ofSegments (trimSegments (front :: rest)) = r at hsegs ⊢
    have hr : r ≠ [] := by
      rintro rfl
      exact hroot hsegs.symm
    have hlast : r.getLast? ≠ some '/' := by
      -- The last segment would be empty, and has been dropped.
      intro hlast
      obtain ⟨init, rfl⟩ := List.getLast?_eq_some_iff.1 hlast
      rw [segments_append_slash, trimSegments_cons] at hsegs
      obtain ⟨front', rest', hinit⟩ := List.exists_cons_of_ne_nil (segments_ne_nil (p := init))
      rw [hinit, List.cons_append, List.cons.injEq] at hsegs
      have hne : rest.rdropWhile isRedundant ≠ [] := by simp [← hsegs.2, segments]
      have hnot := List.rdropWhile_last_not isRedundant rest hne
      simp [← hsegs.2, segments, isRedundant] at hnot
    rw [join, hm.isAbsolute]
    simp [hr, hlast, segments_append_slash, hsegs, hseg]

/-- A path with another file name has the same parent and that name. -/
theorem split?_join_parent (hname : p.fileName? = some name) (hparent : p.parent? = some r)
    (hm : IsName m) : (r.join m).split? = some (r, m) := by
  obtain ⟨before, tail, hsegs, -, hparent', -, -⟩ := exists_of_fileName? hname
  obtain rfl := Option.some.inj (hparent.symm.trans hparent')
  have hred : isRedundant m = false := by simpa [isRedundant] using ⟨hm.1, hm.2.2.1⟩
  have hslash : ∀ s ∈ before, '/' ∉ s := by
    intro s hs
    exact slash_not_mem_of_mem_segments (p := p) (by simp [hsegs, hs])
  by_cases hbefore : before = []
  · rw [if_pos hbefore]
    have hjoin : segments (join [] m) = [] ++ [m] := by
      simpa [join, hm.isAbsolute] using segments_of_not_mem hm.2.1
    rw [split?_of_segments hjoin hred, if_pos rfl]
  · obtain ⟨front, rest, rfl⟩ := List.exists_cons_of_ne_nil hbefore
    rw [if_neg hbefore, split?_of_segments (segments_join_parent hbefore hslash hm) hred,
      if_neg (by simp [trimSegments_cons])]
    -- Nothing redundant is left to be dropped.
    simp only [trimSegments_cons, List.rdropWhile_idempotent]

end Path

/-! ## Companions beside their headers -/

/-- The second path lies in the directory of the first one, under another name, which is none of a
header. -/
structure Config.IsBeside (c : Config) (p output : Path) : Prop where
  parent : output.parent? = p.parent?
  fileName_ne : output.fileName? ≠ p.fileName?
  not_header : ∃ m, output.fileName? = some m ∧ c.isInputName m = false

/-- A suffix that is part of a name keeps the companion beside its header. -/
theorem Config.isBeside_companion (hsuffix : c.generatedSuffix ≠ [])
    (hslash : '/' ∉ c.generatedSuffix) (h : c.companionPath? p = some output) : c.IsBeside p output := by
  obtain ⟨stem, r, hname, hparent, rfl⟩ := c.companionPath?_eq_some h
  obtain ⟨-, -, -, -, -, -, -, -, hisName⟩ := steps_of_fileName? hname
  have hm := c.isName_companion hsuffix hslash hisName
  have hsplit := split?_join_parent hname hparent hm
  have hfileName : (r.join (stem ++ c.companionEnding)).fileName? =
      some (stem ++ c.companionEnding) := by
    rw [fileName?, hsplit]
    simp [hm.2.2.1, hm.2.2.2]
  refine ⟨by rw [parent?, hsplit, hparent]; rfl, ?_, _, hfileName, isInputName_companion⟩
  rw [hfileName, hname, ne_eq, Option.some.injEq, companionEnding, List.append_cancel_left_eq]
  intro heq
  have := congrArg List.length heq
  rw [List.length_append] at this
  exact hsuffix (List.length_eq_zero_iff.1 (by omega))

/-- What is listed below a directory is named like a header. -/
theorem Walk.Lies.isInputName (hlies : Walk.Lies t c input d name place path) (hnames : t.WellNamed)
    (hn : input.fileName? = some n) : c.isInputName n = true := by
  induction hlies with
  | here hfile hname hinput =>
    have hisName := (hnames.isName hfile).1
    subst hinput
    obtain ⟨ys, hys, -⟩ := steps_join hisName
    rw [fileName_eq_of_steps hn hys hisName.2.2.1]
    exact hname
  | enter _ _ ih => exact ih

/-- What is listed is named like a header. -/
theorem isInputName_of_mem_collectHeaders (hnames : t.WellNamed)
    (h : collectHeaders t c root = .ok headers) (hinput : input ∈ headers)
    (hn : input.fileName? = some n) : c.isInputName n = true := by
  rw [collectHeaders] at h
  split at h
  · obtain rfl := Except.ok.inj h
    simp at hinput
  split at h
  · simp at h
  split at h
  · simp at h
  · simp only at h
    split at h
    · obtain rfl := Except.ok.inj h
      obtain ⟨d, name, hlies⟩ := Walk.exists_lies hinput
      exact hlies.isInputName hnames hn
    · simp at h
  · -- The root is a file, and the only header if it is one.
    obtain rfl := Except.ok.inj h
    split at hinput
    · next hroot =>
      obtain rfl := List.mem_singleton.1 hinput
      simpa [hn] using hroot
    · simp at hinput

/-! ## Companions elsewhere -/

/-- The last slash of a text. -/
theorem exists_last_slash (h : '/' ∈ s) : ∃ u w, s = u ++ '/' :: w ∧ '/' ∉ w := by
  obtain ⟨w, u, hrev, hw⟩ := List.eq_append_cons_of_mem (List.mem_reverse.2 h)
  refine ⟨u.reverse, w.reverse, ?_, by simpa using hw⟩
  rw [← List.reverse_reverse s, hrev]
  simp

/-- A path that ends with a name and starts with a letter before a slash has a parent that says
something. -/
theorem Path.parent?_ne_nil {a : Char} {front : Text} (hm : isRedundant m = false)
    (h : segments p = (a :: front) :: segs ++ [m]) : p.parent? ≠ some [] := by
  rw [parent?, split?_of_segments h hm, if_neg (by simp), trimSegments_cons,
    ofSegments_of_ne (by simp)]
  cases segs.rdropWhile isRedundant <;> simp [Text.joinWith, List.intercalate]

/-- The name of one letter and the ending is that of a header, and has a companion. -/
theorem Config.companionPath?_letter (c : Config) (hslash : '/' ∉ c.extension) :
    parent? ('a' :: c.headerEnding) = some [] ∧
      c.companionPath? ('a' :: c.headerEnding) = some ('a' :: c.companionEnding) := by
  have hheader : '/' ∉ 'a' :: c.headerEnding := by simp [headerEnding, hslash]
  have hsegs : segments ('a' :: c.headerEnding) = [] ++ ['a' :: c.headerEnding] :=
    segments_of_not_mem hheader
  have hsplit := split?_of_segments hsegs (by simp [isRedundant, headerEnding])
  have hname : fileName? ('a' :: c.headerEnding) = some ('a' :: c.headerEnding) := by
    rw [fileName?, hsplit]
    simp [headerEnding]
  have hparent : parent? ('a' :: c.headerEnding) = some [] := by simp [parent?, hsplit]
  have hending : Text.dropEnding? c.headerEnding ('a' :: c.headerEnding) = some ['a'] := by
    have hsuffix : c.headerEnding.isSuffixOf ('a' :: c.headerEnding) :=
      List.isSuffixOf_iff_suffix.2 (List.suffix_cons _ _)
    simp [Text.dropEnding?, hsuffix]
  exact ⟨hparent, by simp [companionPath?, hname, hending, withFileName, hparent, join, isAbsolute]⟩

/-- A suffix with a slash takes the companion of a header out of the header's directory. -/
theorem Config.exists_not_isBeside (hext : c.extension ≠ []) (hslashExt : '/' ∉ c.extension)
    (hslash : '/' ∈ c.generatedSuffix) :
    ∃ p output, c.companionPath? p = some output ∧ ¬ c.IsBeside p output := by
  obtain ⟨hparent, hcompanion⟩ := c.companionPath?_letter hslashExt
  refine ⟨_, _, hcompanion, fun hbeside => ?_⟩
  obtain ⟨u, w, hu, hw⟩ := exists_last_slash hslash
  obtain ⟨front, rest, hfront⟩ := List.exists_cons_of_ne_nil (segments_ne_nil (p := u))
  have hlast : segments (w ++ c.headerEnding) = [w ++ c.headerEnding] :=
    segments_of_not_mem (by simp [headerEnding, hw, hslashExt])
  have hsegs : segments ('a' :: c.companionEnding) =
      ('a' :: front) :: rest ++ [w ++ c.headerEnding] := by
    rw [companionEnding, hu, List.append_assoc, List.cons_append, ← List.cons_append,
      segments_append_slash, hlast, segments_cons (by decide) hfront]
  -- The ending is more than a point, so the last segment counts.
  have hred : isRedundant (w ++ c.headerEnding) = false := by
    have hlength : 0 < c.extension.length := List.length_pos_iff.2 hext
    rw [Bool.eq_false_iff, ne_eq, isRedundant_iff]
    rintro (hnil | hdot)
    · simp [headerEnding] at hnil
    · have := congrArg List.length hdot
      simp only [headerEnding, List.length_append, List.length_cons, List.length_nil] at this
      omega
  exact parent?_ne_nil hred hsegs (hbeside.parent.trans hparent)

/-! ## Accepted configurations -/

/-- An accepted configuration has an extension without a point in front, which is empty only if it was
written with points alone, and a suffix. If no slash is in the suffix, every companion lies beside its
header under a name that is none of a header, a generation changes nothing else, and no walk lists a
companion. A slash in the suffix takes companions elsewhere. -/
theorem Config.ofTable_companions (h : ofTable table = .ok c) :
    c.extension.head? ≠ some '.' ∧ c.generatedSuffix ≠ [] ∧
      (c.extension = [] ↔ ∃ dots, table.get? ConfigKey.extension.spelling = some (.string dots) ∧
        ∀ d ∈ dots, d = '.') ∧
      ('/' ∉ c.generatedSuffix → ∀ p output, c.companionPath? p = some output →
        c.IsBeside p output ∧
        (∀ t place, (generateFile t c p).2.entries[place]? ≠ t.entries[place]? →
          t.locate false output = .ok place) ∧
        ∀ t root headers, FileTree.WellNamed t → collectHeaders t c root = .ok headers →
          output ∉ headers) ∧
      (c.extension ≠ [] → '/' ∉ c.extension → '/' ∈ c.generatedSuffix →
        ∃ p output, c.companionPath? p = some output ∧ ¬ c.IsBeside p output) := by
  refine ⟨head?_extension_ne h, generatedSuffix_ne_nil h, extension_eq_nil_iff h, ?_,
    exists_not_isBeside⟩
  intro hslash p output hcompanion
  have hbeside := isBeside_companion (generatedSuffix_ne_nil h) hslash hcompanion
  refine ⟨hbeside, fun t place hchanged => ?_, fun t root headers hnames hheaders hmem => ?_⟩
  · obtain ⟨output', houtput', hlocate⟩ := (generateFile_generates t c p).frame.2 place hchanged
    obtain rfl := Option.some.inj (hcompanion.symm.trans houtput')
    exact hlocate
  · obtain ⟨m, hm, hnot⟩ := hbeside.not_header
    simp [isInputName_of_mem_collectHeaders hnames hheaders hmem hm] at hnot

/-- A table that sets both parts of a companion's name, and a header in a directory. -/
theorem Config.ofTable_companions_reflect :
    ∃ c, ofTable [(ConfigKey.extension.spelling, .string ".hpp".toList),
        (ConfigKey.generatedSuffix.spelling, .string "_reflect".toList)] = .ok c ∧
      c.companionPath? "include/a.hpp".toList = some "include/a_reflect.hpp".toList ∧
      c.IsBeside "include/a.hpp".toList "include/a_reflect.hpp".toList := by
  have hok : ofTable [(ConfigKey.extension.spelling, .string ".hpp".toList),
      (ConfigKey.generatedSuffix.spelling, .string "_reflect".toList)] =
        .ok { default with extension := "hpp".toList, generatedSuffix := "_reflect".toList } :=
    rfl
  have hcompanion : companionPath? { default with
      extension := "hpp".toList, generatedSuffix := "_reflect".toList } "include/a.hpp".toList =
        some "include/a_reflect.hpp".toList := by
    decide +kernel
  exact ⟨_, hok, hcompanion, ((ofTable_companions hok).2.2.2.1 (by decide) _ _ hcompanion).1⟩

/-- A directory and a header whose names differ in the ending alone. -/
def besideTree : FileTree where
  workDir := []
  entries := .ofList [(["a".toList], Entry.dir), (["a.h".toList], Entry.file "".toUTF8)]

/-- An extension of points alone is accepted and leaves none, and so is a suffix that leads to the
header itself, which is then removed. -/
theorem Config.ofTable_accepts_points_and_slash :
    (∃ c, ofTable [(ConfigKey.extension.spelling, .string "...".toList)] = .ok c ∧
      c.extension = []) ∧
    ∃ c, ofTable [(ConfigKey.generatedSuffix.spelling, .string "/../a".toList)] = .ok c ∧
      c.companionPath? "a.h".toList = some "a/../a.h".toList ∧
      ¬ c.IsBeside "a.h".toList "a/../a.h".toList ∧
      besideTree.entries[["a.h".toList]]? = some (.file "".toUTF8) ∧
      (generateFile besideTree c "a.h".toList).2.entries[["a.h".toList]]? = none := by
  have hname : companionPath? { default with generatedSuffix := "/../a".toList } "a.h".toList =
      some "a/../a.h".toList := by
    decide +kernel
  have hlocate : besideTree.locate false "a/../a.h".toList = .ok ["a.h".toList] :=
    locate_of_follows (by decide)
      (.enter (by decide) (by decide +kernel) (.up (.stop (by decide) (by decide +kernel))))
  have hheader : (besideTree.put ["a.h".toList] none).locate true "a.h".toList = .ok ["a.h".toList] :=
    locate_of_follows (by decide) (.stop (by decide) (by decide +kernel))
  have hstatus : (besideTree.put ["a.h".toList] none).status "a.h".toList = .error .notFound := by
    have habsent : entry? (besideTree.put ["a.h".toList] none) ["a.h".toList] = none :=
      entry?_put_self (by decide)
    simp only [status, hheader, habsent, bind, Except.bind]
    rfl
  have hread : readExtraction (besideTree.put ["a.h".toList] none) "a.h".toList =
      .error (.inputNotFound "a.h".toList) := by
    simp only [readExtraction, isFile, hstatus, Bool.false_eq_true, if_false]
  refine ⟨⟨_, rfl, rfl⟩, { default with generatedSuffix := "/../a".toList }, rfl, hname, ?_,
    by decide +kernel, ?_⟩
  · intro hbeside
    have hparent := hbeside.parent
    revert hparent
    decide +kernel
  · -- The header goes first, so it is not found any more.
    simp only [generateFile, hname, removeStale_of_locate hlocate (by decide +kernel), hread]
    rw [getElem?_put, if_pos rfl]

end HeaderReflection
