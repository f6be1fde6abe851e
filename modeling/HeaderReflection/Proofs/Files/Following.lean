/-
  HeaderReflection.Proofs.Files.Following

  How a path is followed depends only on the places that are looked at on the
  way. A change of other places leaves it as it is, and once an entry that is
  looked at has been taken away, the path leads at best to the empty place.
-/
import HeaderReflection.FileTree.Change
import Mathlib.Data.List.Basic

namespace HeaderReflection.FileTree

variable {t t' : FileTree} {place p q here : Place} {e : Option Entry} {followLast : Bool}
variable {links : Nat} {name : Text} {names rest xs ys : List Text} {seen : List Place}
variable {result : Except FileError Place}

/-! ## Entries -/

/-- The tree with the given entry at a place, or with nothing there. -/
def put (t : FileTree) (place : Place) : Option Entry → FileTree
  | some e => t.set place e
  | none => t.erase place

@[simp] theorem workDir_put : (t.put place e).workDir = t.workDir := by
  cases e <;> rfl

theorem getElem?_put :
    (t.put place e).entries[p]? = if place = p then e else t.entries[p]? := by
  cases e with
  | none => simp [put, erase, Std.ExtTreeMap.getElem?_erase]
  | some e => simp [put, set, Std.ExtTreeMap.getElem?_insert]

theorem entry?_eq_of_ne_nil (h : p ≠ []) : t.entry? p = t.entries[p]? := by
  unfold entry?
  rw [if_neg (by simpa using h)]

theorem entry?_put_self (h : place ≠ []) : entry? (t.put place e) place = e := by
  rw [entry?_eq_of_ne_nil h, getElem?_put, if_pos rfl]

theorem entry?_put_of_ne (h : place ≠ p) : entry? (t.put place e) p = t.entry? p := by
  by_cases hp : p = []
  · subst hp
    rfl
  · rw [entry?_eq_of_ne_nil hp, entry?_eq_of_ne_nil hp, getElem?_put, if_neg h]

theorem ext_entries (hdir : t.workDir = t'.workDir)
    (h : ∀ p : Place, t.entries[p]? = t'.entries[p]?) : t = t' := by
  rcases t with ⟨entries, workDir⟩
  rcases t' with ⟨entries', workDir'⟩
  obtain rfl : workDir = workDir' := hdir
  obtain rfl : entries = entries' := Std.ExtTreeMap.ext_getElem? h
  rfl

theorem put_eq_self (h : t.entries[place]? = e) : t.put place e = t := by
  refine ext_entries workDir_put fun p => ?_
  rw [getElem?_put]
  split
  · next hp => rw [← hp, h]
  · rfl

@[simp] theorem put_put (e' : Option Entry) : (t.put place e').put place e = t.put place e := by
  refine ext_entries (by simp) fun p => ?_
  simp only [getElem?_put]
  split <;> rfl

/-! ## The places on the way -/

/-- Is the name one that is looked up, and no way to say a directory or the one above it? -/
def IsLookedUp (name : Text) : Prop :=
  name ≠ ['.'] ∧ name ≠ ['.', '.'] ∧ Text.size name ≤ maxNameSize

instance (name : Text) : Decidable (IsLookedUp name) :=
  inferInstanceAs (Decidable (_ ∧ _ ∧ _))

/-- What ends a walk at a place with the given entry, if something does: it is the last one, or there
is no way on. -/
def ending? (followLast : Bool) (links : Nat) (place : Place) (rest : List Text) :
    Option Entry → Option (Except FileError Place)
  | none => some (if rest.isEmpty then .ok place else .error .notFound)
  | some (.file _) => some (if rest.isEmpty then .ok place else .error .notDirectory)
  | some .dir => none
  | some (.link target) =>
    if rest.isEmpty && !followLast then some (.ok place)
    else if links = 0 then some (.error .tooManyLinks)
    else if target.isEmpty then some (.error .notFound)
    else none

/-- A walk that ends well ends at the last name, which is no directory's. -/
theorem eq_of_ending?_eq_ok (h : ending? followLast links place rest e = some (.ok p)) :
    rest = [] ∧ place = p ∧ e ≠ some .dir := by
  cases rest with
  | nil =>
    cases e with
    | none => simpa [ending?] using h
    | some e => cases e <;> grind [ending?]
  | cons name rest =>
    cases e with
    | none => simp [ending?] at h
    | some e => cases e <;> grind [ending?]

/-- A walk that does not follow a last link ends at the last name, if that is no directory's. -/
theorem ending?_of_ne_dir (h : e ≠ some .dir) : ending? false links place [] e = some (.ok place) := by
  cases e with
  | none => rfl
  | some e =>
    cases e with
    | dir => exact absurd rfl h
    | _ => rfl

/-- The names lead from the directory `here` to the result, and the places `seen` are looked at on the
way. -/
inductive Follows (t : FileTree) (followLast : Bool) :
    Nat → Place → List Text → List Place → Except FileError Place → Prop
  | done {links : Nat} {here : Place} : Follows t followLast links here [] [] (.ok here)
  /-- A dot stays in the directory. -/
  | stay {links : Nat} {here : Place} {rest : List Text} {seen : List Place}
      {result : Except FileError Place} (h : Follows t followLast links here rest seen result) :
      Follows t followLast links here (['.'] :: rest) seen result
  /-- Two dots go up. -/
  | up {links : Nat} {here : Place} {rest : List Text} {seen : List Place}
      {result : Except FileError Place}
      (h : Follows t followLast links here.dropLast rest seen result) :
      Follows t followLast links here (['.', '.'] :: rest) seen result
  | tooLong {links : Nat} {here : Place} {name : Text} {rest : List Text}
      (hname : name ≠ ['.'] ∧ name ≠ ['.', '.'] ∧ maxNameSize < Text.size name) :
      Follows t followLast links here (name :: rest) [] (.error .nameTooLong)
  /-- The walk ends at the place that is looked at. -/
  | stop {links : Nat} {here : Place} {name : Text} {rest : List Text}
      {result : Except FileError Place} (hname : IsLookedUp name)
      (hend : ending? followLast links (here ++ [name]) rest ( t.entry? (here ++ [name])) =
        some result) :
      Follows t followLast links here (name :: rest) [here ++ [name]] result
  /-- A directory is entered. -/
  | enter {links : Nat} {here : Place} {name : Text} {rest : List Text} {seen : List Place}
      {result : Except FileError Place} (hname : IsLookedUp name)
      (hdir : t.entry? (here ++ [name]) = some .dir)
      (h : Follows t followLast links (here ++ [name]) rest seen result) :
      Follows t followLast links here (name :: rest) ((here ++ [name]) :: seen) result
  /-- A link is followed. -/
  | follow {links : Nat} {here : Place} {name : Text} {target : Path} {rest : List Text}
      {seen : List Place} {result : Except FileError Place} (hname : IsLookedUp name)
      (hlink : t.entry? (here ++ [name]) = some (.link target)) (htarget : target ≠ [])
      (hgo : rest = [] → followLast)
      (h : Follows t followLast links (if target.isAbsolute then [] else here)
        (steps target ++ rest) seen result) :
      Follows t followLast (links + 1) here (name :: rest) ((here ++ [name]) :: seen) result

namespace Follows

/-- What is followed is what the walk gives. -/
theorem walk_eq (h : Follows t followLast links here names seen result) :
    t.walk followLast links here names = result := by
  induction h with
  | done => rw [walk]
  | stay h ih => simpa [walk] using ih
  | up h ih => simpa [walk] using ih
  | tooLong hname => simp [walk, hname]
  | @stop links here name rest result hname hend =>
      obtain ⟨hdot, hdots, hsize⟩ := hname
      rw [walk, if_neg (by simpa using hdot), if_neg (by simpa using hdots), if_neg (by omega)]
      cases he : t.entry? (here ++ [name]) with
      | none => simpa [ending?, he] using hend
      | some e =>
        cases e with
        | file contents => simpa [ending?, he] using hend
        | dir => simp [ending?, he] at hend
        | link target =>
          simp only [ending?, he] at hend
          cases links <;> grind
  | enter hname hdir h ih =>
      obtain ⟨hdot, hdots, hsize⟩ := hname
      rw [walk, if_neg (by simpa using hdot), if_neg (by simpa using hdots), if_neg (by omega), hdir]
      exact ih
  | @follow links here name target rest seen result hname hlink htarget hgo h ih =>
      obtain ⟨hdot, hdots, hsize⟩ := hname
      rw [walk, if_neg (by simpa using hdot), if_neg (by simpa using hdots), if_neg (by omega), hlink]
      have hstop : ¬ (rest.isEmpty && !followLast) = true := by
        cases rest <;> simp_all
      simp only [if_neg hstop]
      rw [if_neg (by simpa using htarget)]
      exact ih

end Follows

/-- Every walk follows its names. -/
theorem exists_follows (t : FileTree) (followLast : Bool) (links : Nat) (here : Place)
    (names : List Text) :
    ∃ seen, Follows t followLast links here names seen (t.walk followLast links here names) := by
  fun_induction t.walk followLast links here names with
  | case1 => exact ⟨[], .done⟩
  | case2 links here name rest hname ih =>
      obtain ⟨seen, h⟩ := ih
      obtain rfl : name = ['.'] := by simpa using hname
      exact ⟨seen, .stay h⟩
  | case3 links here name rest _ hname ih =>
      obtain ⟨seen, h⟩ := ih
      obtain rfl : name = ['.', '.'] := by simpa using hname
      exact ⟨seen, .up h⟩
  | case4 links here name rest hdot hdots hsize =>
      exact ⟨[], .tooLong ⟨by simpa using hdot, by simpa using hdots, hsize⟩⟩
  | case9 links here name rest hdot hdots hsize he ih =>
      obtain ⟨seen, h⟩ := ih
      exact ⟨_, .enter ⟨by simpa using hdot, by simpa using hdots, by omega⟩ he h⟩
  | case13 here name rest hdot hdots hsize target he hgo links htarget ih =>
      obtain ⟨seen, h⟩ := ih
      refine ⟨_ :: seen, .follow ⟨by simpa using hdot, by simpa using hdots, by omega⟩ he
        (by simpa using htarget) (fun hrest => by simpa [hrest] using hgo) ?_⟩
      simpa using h
  -- In all other cases the walk ends at the place that is looked at.
  | _ => exact ⟨_, .stop (by simp_all [IsLookedUp]) (by simp_all [ending?])⟩

/-! ## Other entries -/

namespace Follows

/-- Only the entries at the places that are looked at matter. -/
theorem congr (h : Follows t followLast links here names seen result)
    (hsame : ∀ p ∈ seen, t'.entry? p = t.entry? p) :
    Follows t' followLast links here names seen result := by
  induction h with
  | done => exact .done
  | stay _ ih => exact .stay (ih hsame)
  | up _ ih => exact .up (ih hsame)
  | tooLong hname => exact .tooLong hname
  | stop hname hend => exact .stop hname (by rw [hsame _ (by simp), hend])
  | enter hname hdir _ ih =>
      obtain ⟨hhere, hrest⟩ := List.forall_mem_cons.1 hsame
      exact .enter hname (hhere.trans hdir) (ih hrest)
  | follow hname hlink htarget hgo _ ih =>
      obtain ⟨hhere, hrest⟩ := List.forall_mem_cons.1 hsame
      exact .follow hname (hhere.trans hlink) htarget hgo (ih hrest)

/-- A path on which an absent entry is looked at leads to that entry's place or nowhere. -/
theorem of_absent (h : Follows t followLast links here names seen result)
    (hseen : place ∈ seen) (habsent : t.entry? place = none) :
    result = .ok place ∨ result = .error .notFound := by
  induction h with
  | done => simp at hseen
  | stay _ ih => exact ih hseen
  | up _ ih => exact ih hseen
  | tooLong => simp at hseen
  | @stop links here name rest result hname hend =>
      obtain rfl : place = here ++ [name] := by simpa using hseen
      rw [habsent] at hend
      cases rest with
      | nil => exact .inl (by simpa [ending?] using hend.symm)
      | cons => exact .inr (by simpa [ending?] using hend.symm)
  | enter hname hdir _ ih =>
      rcases List.mem_cons.1 hseen with rfl | hseen
      · simp [habsent] at hdir
      · exact ih hseen
  | follow hname hlink htarget hgo _ ih =>
      rcases List.mem_cons.1 hseen with rfl | hseen
      · simp [habsent] at hlink
      · exact ih hseen

/-- A path on which an entry is looked at comes by its place also when the entry is taken away. -/
theorem put_none (h : Follows t followLast links here names seen result) (hseen : place ∈ seen) :
    ∃ seen' result', place ∈ seen' ∧
      Follows (t.put place none) followLast links here names seen' result' := by
  -- Where the entry stood the walk ends now, one way or another.
  have hends : ∀ {links : Nat} {here : Place} {name : Text} {rest : List Text},
      IsLookedUp name → place = here ++ [name] → ∃ seen' result', place ∈ seen' ∧
        Follows (t.put place none) followLast links here (name :: rest) seen' result' := by
    rintro links here name rest hname rfl
    exact ⟨_, _, by simp, .stop hname (by rw [entry?_put_self (by simp)]; rfl)⟩
  induction h with
  | done => simp at hseen
  | stay _ ih =>
      obtain ⟨seen', result', hmem, h⟩ := ih hseen
      exact ⟨seen', result', hmem, .stay h⟩
  | up _ ih =>
      obtain ⟨seen', result', hmem, h⟩ := ih hseen
      exact ⟨seen', result', hmem, .up h⟩
  | tooLong => simp at hseen
  | stop hname => exact hends hname (by simpa using hseen)
  | @enter links here name rest seen result hname hdir _ ih =>
      by_cases hhere : place = here ++ [name]
      · exact hends hname hhere
      · obtain ⟨seen', result', hmem, h⟩ := ih ((List.mem_cons.1 hseen).resolve_left hhere)
        exact ⟨_, result', List.mem_cons_of_mem _ hmem,
          .enter hname ((entry?_put_of_ne hhere).trans hdir) h⟩
  | @follow links here name target rest seen result hname hlink htarget hgo _ ih =>
      by_cases hhere : place = here ++ [name]
      · exact hends hname hhere
      · obtain ⟨seen', result', hmem, h⟩ := ih ((List.mem_cons.1 hseen).resolve_left hhere)
        exact ⟨_, result', List.mem_cons_of_mem _ hmem,
          .follow hname ((entry?_put_of_ne hhere).trans hlink) htarget hgo h⟩

/-- A path that leads to an absent entry leads there too once a file is put in its place. -/
theorem put_file (h : Follows t followLast links here names seen (.ok place))
    (hplace : place ≠ []) (habsent : t.entry? place = none) (contents : ByteArray) :
    Follows (t.put place (some (.file contents))) followLast links here names seen (.ok place) := by
  generalize hresult : Except.ok place = result at h
  induction h with
  | done => exact .done
  | stay _ ih => exact .stay (ih hresult)
  | up _ ih => exact .up (ih hresult)
  | tooLong => simp at hresult
  | @stop links here name rest result hname hend =>
      refine .stop hname ?_
      by_cases hhere : place = here ++ [name]
      · subst hhere
        rw [entry?_put_self hplace]
        rw [habsent, ← hresult] at hend
        rw [← hresult]
        cases rest with
        | nil => exact hend
        | cons => simp [ending?] at hend
      · rw [entry?_put_of_ne hhere, hend]
  | enter hname hdir _ ih =>
      refine .enter hname ?_ (ih hresult)
      rw [entry?_put_of_ne (by rintro rfl; simp [habsent] at hdir), hdir]
  | follow hname hlink htarget hgo _ ih =>
      refine .follow hname ?_ htarget hgo (ih hresult)
      rw [entry?_put_of_ne (by rintro rfl; simp [habsent] at hlink), hlink]

end Follows

/-! ## A link at the end -/

/-- If what a path leads to is no link, following a link at its end makes no difference. -/
theorem Follows.follow_last (h : Follows t false links here names seen result)
    (hend : ∀ place target, result = .ok place → t.entry? place ≠ some (.link target)) :
    Follows t true links here names seen result := by
  induction h with
  | done => exact .done
  | stay _ ih => exact .stay (ih hend)
  | up _ ih => exact .up (ih hend)
  | tooLong hname => exact .tooLong hname
  | @stop links here name rest result hname hstop =>
      refine .stop hname ?_
      cases he : t.entry? (here ++ [name]) with
      | none => simpa [he, ending?] using hstop
      | some e =>
        cases e with
        | file contents => simpa [he, ending?] using hstop
        | dir => simp [he, ending?] at hstop
        | link target =>
          rw [he] at hstop
          cases rest with
          | nil => exact absurd he (hend _ _ (by simpa [ending?] using hstop.symm))
          | cons => simpa [ending?] using hstop
  | enter hname hdir _ ih => exact .enter hname hdir (ih hend)
  | follow hname hlink htarget _ _ ih => exact .follow hname hlink htarget (fun _ => rfl) (ih hend)

theorem walk_follow_last (hend : ∀ place target,
    t.walk false links here names = .ok place → t.entry? place ≠ some (.link target)) :
    t.walk true links here names = t.walk false links here names := by
  obtain ⟨seen, h⟩ := exists_follows t false links here names
  exact (h.follow_last hend).walk_eq

end HeaderReflection.FileTree
