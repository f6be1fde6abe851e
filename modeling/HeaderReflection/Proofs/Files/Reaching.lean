/-
  HeaderReflection.Proofs.Files.Reaching

  The way to a directory. Names that lead to a directory can be followed by
  more names, which then start there, and dots between them make no
  difference.
-/
import HeaderReflection.Proofs.Files.Following
import HeaderReflection.Proofs.Files.Paths

namespace HeaderReflection.FileTree

variable {t t' : FileTree} {place here d : Place} {followLast : Bool}
variable {links links' links'' : Nat} {name : Text} {names rest xs ys : List Text}
variable {seen seen' : List Place} {result : Except FileError Place}

/-- The names lead from the directory `here` to another one in which more names can be looked up; the
places `seen` are looked at on the way, and `links'` links are left. -/
inductive Reaches (t : FileTree) :
    Nat → Place → List Text → List Place → Nat → Place → Prop
  | done {links : Nat} {here : Place} : Reaches t links here [] [] links here
  | stay {links links' : Nat} {here place : Place} {rest : List Text} {seen : List Place}
      (h : Reaches t links here rest seen links' place) :
      Reaches t links here (['.'] :: rest) seen links' place
  | up {links links' : Nat} {here place : Place} {rest : List Text} {seen : List Place}
      (h : Reaches t links here.dropLast rest seen links' place) :
      Reaches t links here (['.', '.'] :: rest) seen links' place
  | enter {links links' : Nat} {here place : Place} {name : Text} {rest : List Text}
      {seen : List Place} (hname : IsLookedUp name) (hdir : t.entry? (here ++ [name]) = some .dir)
      (h : Reaches t links (here ++ [name]) rest seen links' place) :
      Reaches t links here (name :: rest) ((here ++ [name]) :: seen) links' place
  | follow {links links' : Nat} {here place : Place} {name : Text} {target : Path}
      {rest : List Text} {seen : List Place} (hname : IsLookedUp name)
      (hlink : t.entry? (here ++ [name]) = some (.link target)) (htarget : target ≠ [])
      (h : Reaches t links (if target.isAbsolute then [] else here) (steps target ++ rest) seen
        links' place) :
      Reaches t (links + 1) here (name :: rest) ((here ++ [name]) :: seen) links' place

namespace Reaches

/-- Only the entries at the places that are looked at matter. -/
theorem congr (h : Reaches t links here names seen links' place)
    (hsame : ∀ p ∈ seen, t'.entry? p = t.entry? p) :
    Reaches t' links here names seen links' place := by
  induction h with
  | done => exact .done
  | stay _ ih => exact .stay (ih hsame)
  | up _ ih => exact .up (ih hsame)
  | enter hname hdir _ ih =>
      obtain ⟨hhere, hrest⟩ := List.forall_mem_cons.1 hsame
      exact .enter hname (hhere.trans hdir) (ih hrest)
  | follow hname hlink htarget _ ih =>
      obtain ⟨hhere, hrest⟩ := List.forall_mem_cons.1 hsame
      exact .follow hname (hhere.trans hlink) htarget (ih hrest)

theorem append (h : Reaches t links here xs seen links' d)
    (h' : Reaches t links' d ys seen' links'' place) :
    Reaches t links here (xs ++ ys) (seen ++ seen') links'' place := by
  induction h with
  | done => exact h'
  | stay _ ih => exact .stay (ih h')
  | up _ ih => exact .up (ih h')
  | enter hname hdir _ ih => exact .enter hname hdir (ih h')
  | follow hname hlink htarget _ ih =>
      exact .follow hname hlink htarget (by simpa [List.append_assoc] using ih h')

/-- Names that follow start where the first ones led to. -/
theorem follows (h : Reaches t links here xs seen links' d) (hys : ys ≠ [])
    (h' : Follows t followLast links' d ys seen' result) :
    Follows t followLast links here (xs ++ ys) (seen ++ seen') result := by
  induction h with
  | done => exact h'
  | stay _ ih => exact .stay (ih h')
  | up _ ih => exact .up (ih h')
  | enter hname hdir _ ih => exact .enter hname hdir (ih h')
  | follow hname hlink htarget _ ih =>
      exact .follow hname hlink htarget (fun hnil => absurd hnil (by simp [hys]))
        (by simpa [List.append_assoc] using ih h')

/-! ## Dots -/

/-- Dots in front of the names only stay where they are. -/
theorem stay_all (h : Reaches t links here ys seen links' place) (hxs : ∀ x ∈ xs, x = ['.']) :
    Reaches t links here (xs ++ ys) seen links' place := by
  induction xs with
  | nil => exact h
  | cons x xs ih =>
      obtain ⟨rfl, hrest⟩ := List.forall_mem_cons.1 hxs
      exact .stay (ih hrest)

/-- A name that is no dot comes after dots only. -/
theorem exists_of_undotted_eq_cons (h : undotted ys = name :: xs) :
    ∃ dots rest, ys = dots ++ name :: rest ∧ (∀ x ∈ dots, x = ['.']) ∧ undotted rest = xs := by
  obtain ⟨dots, rest, hys, hdots, -, hrest⟩ := List.filter_eq_cons_iff.1 h
  exact ⟨dots, rest, hys, fun x hx => by simpa using hdots x hx, hrest⟩

/-- Names that are the same but for dots lead to the same directory. -/
theorem of_undotted (h : Reaches t links here xs seen links' place)
    (hsame : undotted ys = undotted xs) : Reaches t links here ys seen links' place := by
  induction h generalizing ys with
  | done =>
      have hys : ∀ y ∈ ys, y = ['.'] := by simpa [undotted] using hsame
      simpa using stay_all .done hys
  | stay _ ih => exact ih (by simpa using hsame)
  | up _ ih =>
      obtain ⟨dots, rest, rfl, hdots, hrest⟩ :=
        exists_of_undotted_eq_cons (hsame.trans (undotted_cons (by decide)))
      exact stay_all (.up (ih hrest)) hdots
  | enter hname hdir _ ih =>
      obtain ⟨dots, rest, rfl, hdots, hrest⟩ :=
        exists_of_undotted_eq_cons (hsame.trans (undotted_cons hname.1))
      exact stay_all (.enter hname hdir (ih hrest)) hdots
  | follow hname hlink htarget _ ih =>
      obtain ⟨dots, rest, rfl, hdots, hrest⟩ :=
        exists_of_undotted_eq_cons (hsame.trans (undotted_cons hname.1))
      exact stay_all (.follow hname hlink htarget (ih (by simp [hrest]))) hdots

end Reaches

namespace Follows

/-- A path to a directory reaches it. -/
theorem reaches (h : Follows t true links here names seen (.ok place))
    (hdir : t.entry? place = some .dir) : ∃ links', Reaches t links here names seen links' place := by
  generalize hresult : Except.ok place = result at h
  induction h with
  | done =>
      cases hresult
      exact ⟨_, .done⟩
  | stay _ ih => exact (ih hresult).imp fun _ => .stay
  | up _ ih => exact (ih hresult).imp fun _ => .up
  | tooLong => simp at hresult
  | @stop links here name rest result hname hend =>
      subst hresult
      -- What ends a walk well is the last name, and no directory.
      obtain ⟨-, rfl, hne⟩ := eq_of_ending?_eq_ok hend
      exact absurd hdir hne
  | enter hname hentry _ ih => exact (ih hresult).imp fun _ => .enter hname hentry
  | follow hname hlink htarget _ _ ih => exact (ih hresult).imp fun _ => .follow hname hlink htarget

/-- Where the last names start, the others have led to. -/
theorem exists_reaches (h : Follows t followLast links here (xs ++ name :: ys) seen (.ok place)) :
    ∃ seen₁ seen₂ links' d, seen = seen₁ ++ seen₂ ∧ Reaches t links here xs seen₁ links' d ∧
      Follows t followLast links' d (name :: ys) seen₂ (.ok place) := by
  generalize hresult : Except.ok place = result at h
  generalize hnames : xs ++ name :: ys = names at h
  -- In each case either no names come before the last ones, which then start here, or the first of
  -- them is the one that is followed.
  induction h generalizing xs with
  | done => simp at hnames
  | stay h ih =>
      subst hresult
      cases xs with
      | nil =>
        obtain ⟨rfl, rfl⟩ := List.cons.inj hnames
        exact ⟨[], _, _, _, rfl, .done, .stay h⟩
      | cons x xs =>
        obtain ⟨rfl, rfl⟩ := List.cons.inj hnames
        obtain ⟨seen₁, seen₂, links', d, rfl, hxs, hys⟩ := ih rfl rfl
        exact ⟨seen₁, seen₂, links', d, rfl, .stay hxs, hys⟩
  | up h ih =>
      subst hresult
      cases xs with
      | nil =>
        obtain ⟨rfl, rfl⟩ := List.cons.inj hnames
        exact ⟨[], _, _, _, rfl, .done, .up h⟩
      | cons x xs =>
        obtain ⟨rfl, rfl⟩ := List.cons.inj hnames
        obtain ⟨seen₁, seen₂, links', d, rfl, hxs, hys⟩ := ih rfl rfl
        exact ⟨seen₁, seen₂, links', d, rfl, .up hxs, hys⟩
  | tooLong => simp at hresult
  | @stop links here _ rest result hname hend =>
      subst hresult
      cases xs with
      | nil =>
        obtain ⟨rfl, rfl⟩ := List.cons.inj hnames
        exact ⟨[], _, _, _, rfl, .done, .stop hname hend⟩
      | cons x xs =>
        obtain ⟨rfl, rfl⟩ := List.cons.inj hnames
        exact absurd (eq_of_ending?_eq_ok hend).1 (by simp)
  | enter hname hdir h ih =>
      subst hresult
      cases xs with
      | nil =>
        obtain ⟨rfl, rfl⟩ := List.cons.inj hnames
        exact ⟨[], _, _, _, rfl, .done, .enter hname hdir h⟩
      | cons x xs =>
        obtain ⟨rfl, rfl⟩ := List.cons.inj hnames
        obtain ⟨seen₁, seen₂, links', d, rfl, hxs, hys⟩ := ih rfl rfl
        exact ⟨_ :: seen₁, seen₂, links', d, rfl, .enter hname hdir hxs, hys⟩
  | @follow _ _ _ target _ _ _ hname hlink htarget hgo h ih =>
      subst hresult
      cases xs with
      | nil =>
        obtain ⟨rfl, rfl⟩ := List.cons.inj hnames
        exact ⟨[], _, _, _, rfl, .done, .follow hname hlink htarget hgo h⟩
      | cons x xs =>
        obtain ⟨rfl, rfl⟩ := List.cons.inj hnames
        have hsplit : (steps target ++ xs) ++ name :: ys = steps target ++ (xs ++ name :: ys) :=
          List.append_assoc ..
        obtain ⟨seen₁, seen₂, links', d, rfl, hxs, hys⟩ := ih rfl hsplit
        exact ⟨_ :: seen₁, seen₂, links', d, rfl, .follow hname hlink htarget hxs, hys⟩

end Follows

end HeaderReflection.FileTree
