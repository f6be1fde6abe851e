/-
  HeaderReflection.Proofs.Files.Paths

  Paths taken apart and put together. What a path's file name stands behind,
  and what a path that is joined from a directory and a name is followed by,
  are the same names but for dots.
-/
import HeaderReflection.FileTree.Lookup
import Mathlib.Data.List.DropRight

namespace HeaderReflection

variable {p q r : Path} {name m : Text} {rest tail segs before : List Text}

namespace Path

/-! ## Segments -/

theorem segments_ne_nil : segments p ≠ [] := by
  cases p with
  | nil => simp [segments]
  | cons c p =>
      rw [segments]
      split
      · simp
      · split <;> simp

/-- A slash in front is a segment of its own, which is empty. -/
theorem segments_slash_cons : segments ('/' :: p) = [] :: segments p := by
  simp [segments]

/-- Any other character goes to the first segment. -/
theorem segments_cons {c : Char} (hc : c ≠ '/') (h : segments p = name :: rest) :
    segments (c :: p) = (c :: name) :: rest := by
  simp [segments, hc, h]

/-- The segments on both sides of a slash. -/
theorem segments_append_slash : segments (p ++ '/' :: q) = segments p ++ segments q := by
  induction p with
  | nil => simp [segments]
  | cons c p ih =>
      by_cases hc : c = '/'
      · subst hc
        rw [List.cons_append, segments_slash_cons, segments_slash_cons, ih, List.cons_append]
      · obtain ⟨name, rest, hp⟩ := List.exists_cons_of_ne_nil (segments_ne_nil (p := p))
        have happend : segments (p ++ '/' :: q) = name :: (rest ++ segments q) := by
          rw [ih, hp, List.cons_append]
        rw [List.cons_append, segments_cons hc hp, segments_cons hc happend, List.cons_append]

/-- Without a slash there is one segment. -/
theorem segments_of_not_mem (h : '/' ∉ p) : segments p = [p] := by
  induction p with
  | nil => simp [segments]
  | cons c p ih =>
      obtain ⟨hc, hp⟩ := not_or.1 (mt List.mem_cons.2 h)
      exact segments_cons (Ne.symm hc) (ih hp)

/-- No slash is in a segment. -/
theorem slash_not_mem_of_mem_segments (h : name ∈ segments p) : '/' ∉ name := by
  induction p generalizing name with
  | nil =>
      obtain rfl : name = [] := by simpa [segments] using h
      simp
  | cons c p ih =>
      by_cases hc : c = '/'
      · subst hc
        rw [segments_slash_cons, List.mem_cons] at h
        rcases h with rfl | h
        · simp
        · exact ih h
      · obtain ⟨front, rest, hp⟩ := List.exists_cons_of_ne_nil (segments_ne_nil (p := p))
        rw [segments_cons hc hp, List.mem_cons] at h
        rcases h with rfl | h
        · exact mt List.mem_cons.1 (not_or.2 ⟨Ne.symm hc, ih (hp ▸ List.mem_cons_self)⟩)
        · exact ih (hp ▸ List.mem_cons_of_mem _ h)

/-- Segments put together are cut into the same segments. -/
theorem segments_joinWith (hsegs : segs ≠ []) (h : ∀ s ∈ segs, '/' ∉ s) :
    segments (Text.joinWith ['/'] segs) = segs := by
  induction segs with
  | nil => exact absurd rfl hsegs
  | cons s segs ih =>
      obtain ⟨hs, hrest⟩ := List.forall_mem_cons.1 h
      cases segs with
      | nil => simpa [Text.joinWith] using segments_of_not_mem hs
      | cons s' segs =>
          have hjoin : Text.joinWith ['/'] (s :: s' :: segs) =
              s ++ '/' :: Text.joinWith ['/'] (s' :: segs) := by
            simp [Text.joinWith, List.intercalate]
          rw [hjoin, segments_append_slash, segments_of_not_mem hs, ih (by simp) hrest]
          rfl

/-- A path that starts with an empty segment and goes on starts at the root. -/
theorem isAbsolute_iff : p.isAbsolute = true ↔ ∃ segs, segs ≠ [] ∧ segments p = [] :: segs := by
  cases p with
  | nil => simp [isAbsolute, segments]
  | cons c p =>
      by_cases hc : c = '/'
      · subst hc
        simpa [isAbsolute, segments_slash_cons] using segments_ne_nil
      · obtain ⟨name, rest, hp⟩ := List.exists_cons_of_ne_nil (segments_ne_nil (p := p))
        simp [isAbsolute, segments_cons hc hp, hc]

/-! ## Names -/

/-- The segments that name something: the redundant ones are left out. -/
def names (p : Path) : List Text :=
  p.segments.filter (!isRedundant ·)

theorem isRedundant_iff : isRedundant name = true ↔ name = [] ∨ name = ['.'] := by
  simp [isRedundant]

@[simp] theorem names_nil : names [] = [] := by
  simp [names, segments, isRedundant]

theorem names_append_slash : names (p ++ '/' :: q) = names p ++ names q := by
  simp [names, segments_append_slash]

/-- What is kept of segments without the redundant ones at their end. -/
theorem trimSegments_cons {front : Text} :
    trimSegments (front :: rest) = front :: rest.rdropWhile isRedundant :=
  rfl

theorem isRedundant_of_mem_rtakeWhile (h : name ∈ rest.rtakeWhile isRedundant) :
    isRedundant name = true := by
  simpa using List.mem_rtakeWhile_imp h

/-- Redundant segments name nothing. -/
theorem filter_eq_nil_of_isRedundant (h : ∀ s ∈ segs, isRedundant s = true) :
    segs.filter (!isRedundant ·) = [] := by
  simpa [List.filter_eq_nil_iff] using h

theorem ofSegments_of_ne (h : segs ≠ [[]]) : ofSegments segs = Text.joinWith ['/'] segs := by
  unfold ofSegments
  split
  · exact absurd rfl h
  · rfl

/-- The segments written as a path have the same names, and the path starts at the root if the first
of them is empty. -/
theorem names_ofSegments {front : Text} (h : ∀ s ∈ front :: rest, '/' ∉ s) :
    names (ofSegments (trimSegments (front :: rest))) = (front :: rest).filter (!isRedundant ·) ∧
      ((ofSegments (trimSegments (front :: rest))).isAbsolute = true ↔ front = []) := by
  have hrest : rest.rdropWhile isRedundant ++ rest.rtakeWhile isRedundant = rest :=
    List.rdropWhile_append_rtakeWhile
  have hfilter : (front :: rest).filter (!isRedundant ·) =
      (trimSegments (front :: rest)).filter (!isRedundant ·) := by
    rw [trimSegments_cons]
    conv_lhs => rw [← hrest, ← List.cons_append, List.filter_append,
      filter_eq_nil_of_isRedundant fun _ => isRedundant_of_mem_rtakeWhile, List.append_nil]
  rw [hfilter]
  by_cases hroot : trimSegments (front :: rest) = [[]]
  · have hfront : front = [] := by
      rw [trimSegments_cons] at hroot
      exact (List.cons.inj hroot).1
    rw [hroot]
    simp [hfront, ofSegments, names, segments, isRedundant, isAbsolute]
  · have hmem : ∀ s ∈ trimSegments (front :: rest), '/' ∉ s := by
      intro s hs
      rw [trimSegments_cons, List.mem_cons] at hs
      exact h s (List.mem_cons.2 (hs.imp_right fun hs => (List.rdropWhile_prefix _ rest).subset hs))
    have hsegs : segments (ofSegments (trimSegments (front :: rest))) =
        trimSegments (front :: rest) := by
      rw [ofSegments_of_ne hroot]
      exact segments_joinWith (by simp [trimSegments_cons]) hmem
    refine ⟨by rw [names, hsegs], ?_⟩
    rw [isAbsolute_iff, hsegs, trimSegments_cons]
    rw [trimSegments_cons] at hroot
    constructor
    · rintro ⟨segs, -, hsegs⟩
      exact (List.cons.inj hsegs).1
    · rintro rfl
      exact ⟨_, by simpa using hroot, rfl⟩

theorem eq_of_fileName? {last : Text} (h : p.fileName? = some name)
    (hsplit : p.split? = some (q, last)) :
    last = name ∧ name ≠ ['.'] ∧ name ≠ ['.', '.'] := by
  simp only [fileName?, hsplit] at h
  split at h
  · simp at h
  · next hdots =>
    obtain rfl : last = name := by simpa using h
    simpa [not_or] using hdots

/-- A path with a file name: the segments in front of the name are those of its parent, and behind it
are only redundant ones. -/
theorem exists_of_fileName? (h : p.fileName? = some name) :
    ∃ before tail, segments p = before ++ name :: tail ∧ (∀ s ∈ tail, isRedundant s = true) ∧
      p.parent? = some (if before = [] then [] else ofSegments (trimSegments before)) ∧
      isRedundant name = false ∧ name ≠ ['.', '.'] := by
  obtain ⟨front, rest, hp⟩ := List.exists_cons_of_ne_nil (segments_ne_nil (p := p))
  have hrest : rest.rdropWhile isRedundant ++ rest.rtakeWhile isRedundant = rest :=
    List.rdropWhile_append_rtakeWhile
  have htail : ∀ s ∈ rest.rtakeWhile isRedundant, isRedundant s = true :=
    fun s => isRedundant_of_mem_rtakeWhile
  have htrim : trimSegments (segments p) = front :: rest.rdropWhile isRedundant := by rw [hp]; rfl
  rcases List.eq_nil_or_concat (rest.rdropWhile isRedundant) with hnil | ⟨init, last, hlast⟩
  · -- The name is the only segment that counts.
    rw [hnil] at htrim
    by_cases hfront : front = []
    · simp [fileName?, split?, htrim, hfront] at h
    · have hsplit : p.split? = some ([], front) := by simp [split?, htrim, hfront]
      obtain ⟨rfl, hdot, hdots⟩ := eq_of_fileName? h hsplit
      refine ⟨[], rest, hp, ?_, by simp [parent?, hsplit], ?_, hdots⟩
      · rw [← hrest, hnil, List.nil_append]
        exact htail
      · simpa [isRedundant] using ⟨hfront, hdot⟩
  · rw [hlast] at htrim
    have hsplit : p.split? = some (ofSegments (trimSegments (front :: init)), last) := by
      simp [split?, htrim]
    obtain ⟨rfl, -, hdots⟩ := eq_of_fileName? h hsplit
    refine ⟨front :: init, rest.rtakeWhile isRedundant, ?_, htail, by simp [parent?, hsplit], ?_,
      hdots⟩
    · rw [hp, List.cons_append]
      congr 1
      conv_lhs => rw [← hrest, hlast]
      simp
    · have hne : rest.rdropWhile isRedundant ≠ [] := by simp [hlast]
      simpa [hlast] using List.rdropWhile_last_not isRedundant rest hne

/-! ## Names of entries -/

/-- Can an entry of a directory be called so? -/
def IsName (name : Text) : Prop :=
  name ≠ [] ∧ '/' ∉ name ∧ name ≠ ['.'] ∧ name ≠ ['.', '.']

instance (name : Text) : Decidable (IsName name) :=
  inferInstanceAs (Decidable (_ ∧ _ ∧ _ ∧ _))

/-- The path with another file name is joined from the parent and that name. -/
theorem withFileName_eq (h : p.fileName? = some name) (hparent : p.parent? = some r) :
    p.withFileName m = r.join m := by
  simp [withFileName, h, hparent]

theorem IsName.isAbsolute (hm : IsName m) : Path.isAbsolute m = false := by
  obtain ⟨hne, hslash, -⟩ := hm
  cases m with
  | nil => exact absurd rfl hne
  | cons c m => simpa [Path.isAbsolute] using (not_or.1 (mt List.mem_cons.2 hslash)).1 ∘ Eq.symm

/-- The segments of a path that ends with a name. -/
theorem segments_join (hm : IsName m) :
    ∃ segs, segments (r.join m) = segs ++ [m] ∧ segs.filter (!isRedundant ·) = names r := by
  have hseg : segments m = [m] := segments_of_not_mem hm.2.1
  rw [join, hm.isAbsolute]
  by_cases hr : r = []
  · subst hr
    exact ⟨[], by simpa using hseg, by simp⟩
  · by_cases hlast : r.getLast? = some '/'
    · -- The slash at the end is the one between the parts.
      obtain ⟨init, rfl⟩ := List.getLast?_eq_some_iff.1 hlast
      refine ⟨segments init, ?_, ?_⟩
      · simp [segments_append_slash, hseg]
      · rw [names_append_slash, names_nil, List.append_nil, names]
    · refine ⟨segments r, ?_, rfl⟩
      simp [hr, hlast, segments_append_slash, hseg]

theorem names_join (hm : IsName m) : names (r.join m) = names r ++ [m] := by
  obtain ⟨segs, hsegs, hnames⟩ := segments_join (r := r) hm
  have hred : isRedundant m = false := by simpa [isRedundant] using ⟨hm.1, hm.2.2.1⟩
  rw [names, hsegs, List.filter_append, hnames]
  simp [hred]

theorem isAbsolute_join (hm : IsName m) : (r.join m).isAbsolute = r.isAbsolute := by
  rw [join, hm.isAbsolute]
  cases r with
  | nil => simpa [Path.isAbsolute] using hm.isAbsolute
  | cons c r => by_cases hlast : (c :: r).getLast? = some '/' <;> simp [hlast, isAbsolute]

theorem join_ne_nil (hm : IsName m) : r.join m ≠ [] := by
  intro hnil
  obtain ⟨segs, hsegs, -⟩ := segments_join (r := r) hm
  rw [hnil] at hsegs
  have hm' : m = [] := by simpa [segments] using (congrArg List.getLast? hsegs).symm
  exact hm.1 hm'

theorem getLast?_join (hm : IsName m) : (r.join m).getLast? ≠ some '/' := by
  have hlast : m.getLast? ≠ some '/' := fun h => hm.2.1 (List.mem_of_getLast? h)
  have happend : ∀ q : Path, (q ++ m).getLast? = m.getLast? := by
    intro q
    rw [List.getLast?_append]
    cases h : m.getLast? with
    | none => exact absurd (List.getLast?_eq_none_iff.1 h) hm.1
    | some c => rfl
  rw [join, hm.isAbsolute]
  by_cases hr : r.isEmpty || r.getLast? == some '/'
  · simpa [hr, happend] using hlast
  · have hslash : r ++ '/' :: m = (r ++ ['/']) ++ m := (List.append_assoc r ['/'] m).symm
    simpa only [Bool.false_eq_true, if_false, hr, hslash, happend] using hlast

end Path

namespace FileTree

open HeaderReflection.Path

/-! ## Steps -/

/-- The names without the dots among them. -/
def undotted (names : List Text) : List Text :=
  names.filter (· ≠ ['.'])

@[simp] theorem undotted_append {xs ys : List Text} :
    undotted (xs ++ ys) = undotted xs ++ undotted ys :=
  List.filter_append ..

@[simp] theorem undotted_dot_cons : undotted (['.'] :: rest) = undotted rest := by
  simp [undotted]

theorem undotted_cons (h : name ≠ ['.']) : undotted (name :: rest) = name :: undotted rest := by
  simp [undotted, h]

theorem undotted_filter :
    undotted (segs.filter (!·.isEmpty)) = segs.filter (!isRedundant ·) := by
  rw [undotted, List.filter_filter]
  congr 1
  funext s
  rw [isRedundant, Bool.not_or, Bool.and_comm, decide_not, beq_eq_decide]

/-- The steps on a path are its names, but for dots. -/
theorem undotted_steps : undotted (steps p) = names p := by
  rw [steps, names, ← undotted_filter]
  split <;> simp [undotted]

/-- The last step on a path that is joined with a name is to that name. -/
theorem steps_join (hm : IsName m) :
    ∃ xs, steps (r.join m) = xs ++ [m] ∧ undotted xs = names r := by
  obtain ⟨segs, hsegs, hnames⟩ := segments_join (r := r) hm
  refine ⟨segs.filter (!·.isEmpty), ?_, undotted_filter.trans hnames⟩
  rw [steps, if_neg (by simpa using getLast?_join hm), hsegs]
  simp [hm.1]

/-- A path with a file name leads by the names of its parent to that name, with no more than dots
behind it. -/
theorem steps_of_fileName? (h : p.fileName? = some name) :
    ∃ r xs dots, p.parent? = some r ∧ steps p = xs ++ name :: dots ∧ (∀ d ∈ dots, d = ['.']) ∧
      undotted xs = names r ∧ p.isAbsolute = r.isAbsolute ∧ IsName name := by
  obtain ⟨before, tail, hsegs, htail, hparent, hred, hdots⟩ := exists_of_fileName? h
  have hslash : ∀ s ∈ segments p, '/' ∉ s := fun s => slash_not_mem_of_mem_segments
  rw [hsegs] at hslash
  have hname : IsName name := by
    obtain ⟨hne, hdot⟩ : name ≠ [] ∧ name ≠ ['.'] := by simpa [isRedundant] using hred
    exact ⟨hne, hslash name (by simp), hdot, hdots⟩
  -- Only redundant segments stand behind the name, and of these the steps keep the dots.
  have hsteps : ∃ dots, steps p = before.filter (!·.isEmpty) ++ name :: dots ∧
      ∀ d ∈ dots, d = ['.'] := by
    have hdot : ∀ d ∈ tail.filter (!·.isEmpty), d = ['.'] := by
      intro d hd
      obtain ⟨hmem, hne⟩ := List.mem_filter.1 hd
      rcases isRedundant_iff.1 (htail d hmem) with rfl | rfl
      · simp at hne
      · rfl
    rw [steps, hsegs]
    split
    · exact ⟨tail.filter (!·.isEmpty) ++ [['.']], by simp [hname.1],
        List.forall_mem_append.2 ⟨hdot, by simp⟩⟩
    · exact ⟨tail.filter (!·.isEmpty), by simp [hname.1], hdot⟩
  obtain ⟨dots, hsteps, hdot⟩ := hsteps
  refine ⟨_, _, dots, hparent, hsteps, hdot, ?_, ?_, hname⟩
  · rw [undotted_filter]
    cases before with
    | nil => simp
    | cons front rest =>
        rw [if_neg (by simp), (names_ofSegments fun s hs => hslash s (List.mem_append_left _ hs)).1]
  · rw [Bool.eq_iff_iff, isAbsolute_iff, hsegs]
    cases before with
    | nil => simp [hname.1, Path.isAbsolute]
    | cons front rest =>
        rw [if_neg (by simp), (names_ofSegments fun s hs => hslash s (List.mem_append_left _ hs)).2]
        constructor
        · rintro ⟨segs, -, hsegs⟩
          exact (List.cons.inj hsegs).1
        · rintro rfl
          exact ⟨_, by simp, rfl⟩

end FileTree

end HeaderReflection
