/-
  HeaderReflection.Proofs.Files.Listing

  What a walk lists. The order of a directory's entries and what the walk makes
  of them depend on the entries alone, and an entry that is neither a directory
  nor called like a header is passed over. No walk gets deeper than there are
  directories, so the bound on its depth makes no difference.
-/
import HeaderReflection.Proofs.Files.Run
import Mathlib.Data.Finset.Card
import Mathlib.Data.List.Sort

namespace HeaderReflection

open FileTree Walk

variable {s t t' : FileTree} {c : Config} {input path : Path} {q place d : Place}
variable {way : List Place} {name : Text} {e : Entry} {start : Start} {rules : List RulesAt}
variable {bound bound' : Nat}

namespace FileTree

/-! ## Entries of a directory -/

/-- The last name of a place below a directory. -/
theorem eq_of_child {p : Place} {a : Text × Entry}
    (h : (if p.dropLast == place then p.getLast?.map fun name => (name, e) else none) = some a) :
    p = place ++ [a.1] ∧ a.2 = e := by
  split at h
  · next hdir =>
    obtain ⟨name, hlast, rfl⟩ := Option.map_eq_some_iff.1 h
    obtain ⟨init, rfl⟩ := List.getLast?_eq_some_iff.1 hlast
    obtain rfl : init = place := by simpa using hdir
    exact ⟨rfl, rfl⟩
  · simp at h

theorem mem_children : (name, e) ∈ t.children place ↔ t.entries[place ++ [name]]? = some e := by
  simp only [children, List.mem_filterMap, Prod.exists,
    Std.ExtTreeMap.mem_toList_iff_getElem?_eq_some]
  constructor
  · rintro ⟨p, e', hp, hchild⟩
    obtain ⟨rfl, rfl⟩ := eq_of_child hchild
    exact hp
  · intro h
    exact ⟨place ++ [name], e, h, by simp⟩

/-- The entries come in the order of their places. -/
theorem pairwise_children : (t.children place).Pairwise fun a b =>
    compare (place ++ [a.1]) (place ++ [b.1]) = .lt := by
  refine List.pairwise_filterMap.2 ?_
  refine Std.ExtTreeMap.ordered_keys_toList.imp fun {x y} hlt a ha b hb => ?_
  rw [← (eq_of_child ha).1, ← (eq_of_child hb).1]
  exact hlt

/-- Two trees have the same entries in a directory, in the same order, but for those that the test
leaves out. -/
theorem filter_children_eq {keep : Text × Entry → Bool}
    (h : ∀ name e, keep (name, e) = true →
      (t.entries[place ++ [name]]? = some e ↔ t'.entries[place ++ [name]]? = some e)) :
    (t.children place).filter keep = (t'.children place).filter keep := by
  let r : Text × Entry → Text × Entry → Prop := fun a b =>
    compare (place ++ [a.1]) (place ++ [b.1]) = .lt
  have : Std.Irrefl r := ⟨fun a ha => by simp [r] at ha⟩
  have : Std.Antisymm r := ⟨fun a b hab hba => by
    exact absurd (Std.OrientedCmp.gt_of_lt hba) (by rw [show compare _ _ = _ from hab]; decide)⟩
  refine List.Pairwise.eq_of_mem_iff (r := r) (pairwise_children.filter _)
    (pairwise_children.filter _) fun ⟨name, e⟩ => ?_
  simp only [List.mem_filter, mem_children]
  exact and_congr_left (h name e)

/-- What is made of the entries is the same for both trees, if nothing is made of those that differ. -/
theorem flatMap_children_eq {β : Type} {f : Text × Entry → List β}
    (h : ∀ name, t.entries[place ++ [name]]? = t'.entries[place ++ [name]]? ∨
      ∀ e, t.entries[place ++ [name]]? = some e ∨ t'.entries[place ++ [name]]? = some e →
        f (name, e) = []) :
    (t.children place).flatMap f = (t'.children place).flatMap f := by
  have hskip : ∀ l : List (Text × Entry), l.flatMap f =
      (l.filter fun a => !(f a).isEmpty).flatMap f := by
    intro l
    induction l with
    | nil => rfl
    | cons a l ih => cases ha : f a <;> simp [ha, ih]
  rw [hskip, hskip (t'.children place), filter_children_eq]
  intro name e hkeep
  rcases h name with hsame | hnil
  · rw [hsame]
  · have hne : f (name, e) ≠ [] := by simpa using hkeep
    exact iff_of_false (fun he => hne (hnil e (.inl he))) fun he => hne (hnil e (.inr he))

/-! ## Directories below a place -/

/-- The places of the directories below a place. -/
def dirsBelow (t : FileTree) (place : Place) : Finset Place :=
  t.entries.keys.toFinset.filter fun p => place <+: p ∧ place ≠ p ∧ t.entries[p]? = some .dir

theorem mem_dirsBelow {p : Place} :
    p ∈ t.dirsBelow place ↔ place <+: p ∧ place ≠ p ∧ t.entries[p]? = some .dir := by
  simp only [dirsBelow, Finset.mem_filter, List.mem_toFinset, and_iff_right_iff_imp]
  rintro ⟨-, -, h⟩
  exact Std.ExtTreeMap.mem_keys.2 (Std.ExtTreeMap.mem_iff_isSome_getElem?.2 (by simp [h]))

/-- There are no more directories below a place than there are entries. -/
theorem card_dirsBelow_le : (t.dirsBelow place).card ≤ t.entries.size := by
  refine (Finset.card_filter_le _ _).trans ((List.toFinset_card_le _).trans ?_)
  rw [Std.ExtTreeMap.length_keys]

/-- There are fewer directories below a directory than below the one that it is in. -/
theorem card_dirsBelow_lt (h : t.entries[place ++ [name]]? = some .dir) :
    (t.dirsBelow (place ++ [name])).card < (t.dirsBelow place).card := by
  refine Finset.card_lt_card (Finset.ssubset_iff_of_subset ?_ |>.2 ⟨place ++ [name], ?_, ?_⟩)
  · intro p hp
    obtain ⟨hbelow, -, hdir⟩ := mem_dirsBelow.1 hp
    refine mem_dirsBelow.2 ⟨(List.prefix_append _ _).trans hbelow, ?_, hdir⟩
    rintro rfl
    have := hbelow.length_le
    simp only [List.length_append, List.length_cons, List.length_nil] at this
    omega
  · exact mem_dirsBelow.2 ⟨List.prefix_append _ _, by simp, h⟩
  · simp [mem_dirsBelow]

end FileTree

namespace Walk

/-! ## The depth of a walk -/

/-- The headers that an entry of a directory stands for or holds. -/
def headersOfEntry (t : FileTree) (c : Config) (start : Start) (bound : Nat) (rules : List RulesAt)
    (place : Place) (path : Path) (x : Text × Entry) : List Path :=
  match x.2 with
  | .file _ =>
    if !isLeftOut start rules false path x.1 && c.isInputName x.1 then [path.join x.1] else []
  | .dir =>
    if isLeftOut start rules true path x.1 || c.skips x.1 then []
    else headersBelow t c start bound rules (place ++ [x.1]) (path.join x.1)
  | .link _ => []

/-- The headers below a directory are those of its entries. -/
theorem headersBelow_succ : headersBelow t c start (bound + 1) rules place path =
    (t.children place).flatMap
      (headersOfEntry t c start bound ((readRules t place path).1 :: rules) place path) :=
  rfl

/-- A bound that is above the number of directories is as good as any other. -/
theorem headersBelow_bound (hbound : (t.dirsBelow place).card < bound)
    (hbound' : (t.dirsBelow place).card < bound') :
    headersBelow t c start bound rules place path =
      headersBelow t c start bound' rules place path := by
  induction bound generalizing bound' rules place path with
  | zero => omega
  | succ bound ih =>
      cases bound' with
      | zero => omega
      | succ bound' =>
        rw [headersBelow_succ, headersBelow_succ]
        refine List.flatMap_congr fun x hmem => ?_
        rcases x with ⟨name, e⟩
        cases e with
        | file => rfl
        | link => rfl
        | dir =>
          have hlt := card_dirsBelow_lt (mem_children.1 hmem)
          have hbelow : (t.dirsBelow (place ++ [name])).card < bound' := by omega
          simp only [headersOfEntry]
          rw [ih (by omega) hbelow]

/-! ## The same walk in another tree -/

/-- A walk that starts at a directory, with the rules on the way to it, comes by the directory `d`. -/
inductive ComesBy (t : FileTree) (c : Config) (start : Start) :
    List RulesAt → Place → Path → Place → Prop
  | here {rules : List RulesAt} {place : Place} {path : Path} :
      ComesBy t c start rules place path place
  | enter {rules : List RulesAt} {place d : Place} {path : Path} {name : Text}
      (hdir : t.entries[place ++ [name]]? = some .dir)
      (hleft : isLeftOut start ((readRules t place path).1 :: rules) true path name = false)
      (hskip : c.skips name = false)
      (h : ComesBy t c start ((readRules t place path).1 :: rules) (place ++ [name])
        (path.join name) d) :
      ComesBy t c start rules place path d

/-- A tree that has kept what a run keeps has the same headers, if the same rules are read. -/
theorem headersBelow_eq (hkeeps : Keeps t c way t')
    (hrules : ∀ d, ComesBy t c start rules place path d →
      ∀ p, readRules t' d p = readRules t d p) :
    headersBelow t' c start bound rules place path =
      headersBelow t c start bound rules place path := by
  induction bound generalizing rules place path with
  | zero => rfl
  | succ bound ih =>
      have hentry : ∀ name, IsKept t c way (place ++ [name]) →
          t'.entries[place ++ [name]]? = t.entries[place ++ [name]]? := by
        intro name hkept
        have h := hkeeps.entry _ hkept
        rwa [entry?_eq_of_ne_nil (by simp), entry?_eq_of_ne_nil (by simp)] at h
      have hdir : ∀ name, t'.entries[place ++ [name]]? = some .dir →
          t.entries[place ++ [name]]? = some .dir := by
        intro name hname
        have h := hkeeps.dir (place ++ [name])
        rw [entry?_eq_of_ne_nil (by simp), entry?_eq_of_ne_nil (by simp)] at h
        exact h hname
      rw [headersBelow_succ, headersBelow_succ, hrules place .here]
      -- First the walks below are the same, and then the entries do.
      trans (t'.children place).flatMap
        (headersOfEntry t c start bound ((readRules t place path).1 :: rules) place path)
      · refine List.flatMap_congr fun x hmem => ?_
        rcases x with ⟨name, e⟩
        cases e with
        | file => rfl
        | link => rfl
        | dir =>
          simp only [headersOfEntry]
          split
          · rfl
          · next hin =>
            simp only [Bool.or_eq_true, not_or, Bool.not_eq_true] at hin
            exact ih fun d hd => hrules d
              (.enter (hdir name (mem_children.1 hmem)) hin.1 hin.2 hd)
      · refine flatMap_children_eq fun name => ?_
        by_cases hkept : IsKept t c way (place ++ [name])
        · exact .inl (hentry name hkept)
        · have hname : c.isInputName name = false := by
            by_contra hname
            exact hkept (.inr (.inr ⟨place, name, rfl, by simpa using hname⟩))
          have hnot : t.entries[place ++ [name]]? ≠ some .dir := fun h =>
            hkept (.inr (.inl (by rw [entry?_eq_of_ne_nil (by simp), h])))
          refine .inr fun e he => ?_
          cases e with
          | file => simp [headersOfEntry, hname]
          | link => rfl
          | dir => exact absurd (he.elim (hdir name) id) hnot

/-- A tree that has kept what a run keeps has the same directories. -/
theorem dirsBelow_eq (hkeeps : Keeps t c way t') : t'.dirsBelow place = t.dirsBelow place := by
  ext p
  rw [mem_dirsBelow, mem_dirsBelow]
  refine and_congr_right fun hbelow => and_congr_right fun hne => ?_
  have hp : p ≠ [] := by
    rintro rfl
    exact hne (List.prefix_nil.1 hbelow)
  rw [← entry?_eq_of_ne_nil hp, ← entry?_eq_of_ne_nil hp]
  exact ⟨hkeeps.dir p, fun h => (hkeeps.entry p (.inr (.inl h))).trans h⟩

/-! ## Headers that are listed -/

/-- The header `input` lies in the directory `d` under the given name, and below the directory at
`place`, whose path is `path`. -/
inductive Lies (t : FileTree) (c : Config) (input : Path) (d : Place) (name : Text) :
    Place → Path → Prop
  | here {path : Path} {contents : ByteArray}
      (hfile : t.entries[d ++ [name]]? = some (.file contents)) (hname : c.isInputName name = true)
      (hinput : input = path.join name) : Lies t c input d name d path
  | enter {place : Place} {path : Path} {dirName : Text}
      (hdir : t.entries[place ++ [dirName]]? = some .dir)
      (h : Lies t c input d name (place ++ [dirName]) (path.join dirName)) :
      Lies t c input d name place path

theorem exists_lies (h : input ∈ headersBelow t c start bound rules place path) :
    ∃ d name, Lies t c input d name place path := by
  induction bound generalizing rules place path with
  | zero => simp [headersBelow] at h
  | succ bound ih =>
      simp only [headersBelow, List.mem_flatMap] at h
      obtain ⟨⟨name, e⟩, hmem, hinput⟩ := h
      rw [mem_children] at hmem
      cases e with
      | file contents =>
        simp only at hinput
        split at hinput
        · next hname =>
          simp only [Bool.and_eq_true] at hname
          exact ⟨place, name, .here hmem hname.2 (by simpa using hinput)⟩
        · simp at hinput
      | dir =>
        simp only at hinput
        split at hinput
        · simp at hinput
        · obtain ⟨d, name', hlies⟩ := ih hinput
          exact ⟨d, name', .enter hmem hlies⟩
      | link target => simp at hinput

end Walk

end HeaderReflection
