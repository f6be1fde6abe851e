/-
  HeaderReflection.Proofs.EditScripts

  The distance of two byte strings is the length of the shortest script of
  single edits from the one to the other. The table is filled from the first
  bytes to the last, so the recursion that it follows takes the last bytes off;
  read backwards it is the plain recursion on both strings. No edit changes
  that by more than one, and following it gives a script.
-/
import HeaderReflection.EditDistance
import Mathlib.Data.List.Basic
import Mathlib.Order.Bounds.Basic
import Mathlib.Order.MinMax

namespace HeaderReflection

namespace EditDistance

/-! ## Scripts -/

/-- One byte is put in, taken out, or replaced. -/
inductive Edit : List UInt8 → List UInt8 → Prop
  | insert (front back : List UInt8) (x : UInt8) : Edit (front ++ back) (front ++ x :: back)
  | delete (front back : List UInt8) (x : UInt8) : Edit (front ++ x :: back) (front ++ back)
  | replace (front back : List UInt8) (x y : UInt8) :
      Edit (front ++ x :: back) (front ++ y :: back)

/-- That many edits, one after the other, lead from the one string to the other. -/
inductive Script : Nat → List UInt8 → List UInt8 → Prop
  | nil {a : List UInt8} : Script 0 a a
  | cons {n : Nat} {a b c : List UInt8} (edit : Edit a b) (rest : Script n b c) : Script (n + 1) a c

variable {a b c : List UInt8} {x y : UInt8} {m n : Nat}

/-- What one edit does another one undoes. -/
theorem Edit.symm (h : Edit a b) : Edit b a := by
  cases h with
  | insert front back x => exact .delete front back x
  | delete front back x => exact .insert front back x
  | replace front back x y => exact .replace front back y x

/-- An edit stays one behind another byte. -/
theorem Edit.behind (h : Edit a b) (x : UInt8) : Edit (x :: a) (x :: b) := by
  cases h with
  | insert front back y => exact .insert (x :: front) back y
  | delete front back y => exact .delete (x :: front) back y
  | replace front back y z => exact .replace (x :: front) back y z

theorem Edit.reverse (h : Edit a b) : Edit a.reverse b.reverse := by
  cases h with
  | insert front back x => simpa using Edit.insert back.reverse front.reverse x
  | delete front back x => simpa using Edit.delete back.reverse front.reverse x
  | replace front back x y => simpa using Edit.replace back.reverse front.reverse x y

namespace Script

theorem single (h : Edit a b) : Script 1 a b :=
  .cons h .nil

/-- One script goes on where another one stops. -/
theorem trans (h : Script m a b) (h' : Script n b c) : Script (m + n) a c := by
  induction h with
  | nil => rwa [Nat.zero_add]
  | cons edit _ ih =>
      rw [Nat.add_right_comm]
      exact .cons edit (ih h')

theorem symm (h : Script n a b) : Script n b a := by
  induction h with
  | nil => exact .nil
  | cons edit _ ih => exact ih.trans (single edit.symm)

theorem behind (h : Script n a b) (x : UInt8) : Script n (x :: a) (x :: b) := by
  induction h with
  | nil => exact .nil
  | cons edit _ ih => exact .cons (edit.behind x) ih

theorem reverse (h : Script n a b) : Script n a.reverse b.reverse := by
  induction h with
  | nil => exact .nil
  | cons edit _ ih => exact .cons edit.reverse ih

/-- A script without edits changes nothing. -/
theorem zero_iff : Script 0 a b ↔ a = b := by
  constructor
  · intro h
    cases h
    rfl
  · rintro rfl
    exact .nil

end Script

/-! ## The recursion -/

/-- What a byte costs in the place of another one. -/
def cost (x y : UInt8) : Nat :=
  if x == y then 0 else 1

/-- The distance by its recursion on the first bytes. -/
def least : List UInt8 → List UInt8 → Nat
  | [], b => b.length
  | _ :: a, [] => a.length + 1
  | x :: a, y :: b =>
    min (min (least a (y :: b) + 1) (least (x :: a) b + 1)) (least a b + cost x y)
termination_by a b => a.length + b.length

theorem cost_le_one (x y : UInt8) : cost x y ≤ 1 := by
  unfold cost
  split <;> omega

@[simp] theorem least_nil_left (b : List UInt8) : least [] b = b.length := by
  rw [least]

@[simp] theorem least_nil_right (a : List UInt8) : least a [] = a.length := by
  cases a <;> simp [least]

theorem least_cons_cons (x y : UInt8) (a b : List UInt8) : least (x :: a) (y :: b) =
    min (min (least a (y :: b) + 1) (least (x :: a) b + 1)) (least a b + cost x y) := by
  rw [least]

@[simp] theorem least_self (a : List UInt8) : least a a = 0 := by
  induction a with
  | nil => exact least_nil_left []
  | cons x a ih =>
      rw [least_cons_cons, ih]
      simp [cost]

/-! ## No edit changes it by more than one -/

/-- A byte more at the front makes at most one edit more. -/
theorem least_cons_right_le (a b : List UInt8) (y : UInt8) : least a (y :: b) ≤ least a b + 1 := by
  cases a with
  | nil => simp
  | cons x a =>
      rw [least_cons_cons]
      omega

theorem least_cons_le (x : UInt8) (a b : List UInt8) : least (x :: a) b ≤ least a b + 1 := by
  cases b with
  | nil => simp
  | cons y b =>
      rw [least_cons_cons]
      omega

/-- A byte less at the front makes at most one edit more, too. -/
theorem le_least_cons (x : UInt8) (a b : List UInt8) : least a b ≤ least (x :: a) b + 1 := by
  induction b with
  | nil =>
      rw [least_nil_right, least_nil_right, List.length_cons]
      omega
  | cons y b ih =>
      have := least_cons_right_le a b y
      rw [least_cons_cons]
      omega

theorem least_replace_le (x y : UInt8) (a b : List UInt8) :
    least (x :: a) b ≤ least (y :: a) b + 1 := by
  induction b with
  | nil => simp
  | cons z b ih =>
      have := cost_le_one x z
      rw [least_cons_cons, least_cons_cons]
      omega

/-- What stands in front of two strings takes them no further apart. -/
theorem least_append_le (h : ∀ c, least a c ≤ least b c + 1) (front c : List UInt8) :
    least (front ++ a) c ≤ least (front ++ b) c + 1 := by
  induction front generalizing c with
  | nil => exact h c
  | cons x front ih =>
      -- The first byte may be paired with any byte of `c`, so `c` is gone through as well.
      rw [List.cons_append, List.cons_append]
      induction c with
      | nil => simpa using ih []
      | cons y c ihc =>
          have := ih (y :: c)
          have := ih c
          rw [least_cons_cons, least_cons_cons]
          omega

/-- An edit takes a string away from another one by at most one. -/
theorem Edit.least_le (h : Edit a b) (c : List UInt8) : least a c ≤ least b c + 1 := by
  cases h with
  | insert front back x => exact least_append_le (fun c => le_least_cons x back c) front c
  | delete front back x => exact least_append_le (fun c => least_cons_le x back c) front c
  | replace front back x y => exact least_append_le (fun c => least_replace_le x y back c) front c

/-- No script is shorter. -/
theorem Script.least_le (h : Script n a b) : least a b ≤ n := by
  -- The other string is held fixed: it is the end of the script, whose beginning goes on.
  have hle : ∀ c, least a c ≤ least b c + n := by
    induction h with
    | nil => exact fun c => Nat.le_refl _
    | cons edit _ ih =>
        intro c
        have := edit.least_le c
        have := ih c
        omega
  simpa using hle b

/-! ## A script of that length -/

theorem script_length_nil (a : List UInt8) : Script a.length a [] := by
  induction a with
  | nil => exact .nil
  | cons x a ih => exact .cons (.delete [] a x) ih

/-- The recursion follows a script. -/
theorem script_least (a b : List UInt8) : Script (least a b) a b := by
  fun_induction least a b with
  | case1 b => exact (script_length_nil b).symm
  | case2 x a => exact script_length_nil (x :: a)
  | case3 x a y b ihdelete ihinsert ihreplace =>
    have hdelete : Script (least a (y :: b) + 1) (x :: a) (y :: b) :=
      .cons (.delete [] a x) ihdelete
    have hinsert : Script (least (x :: a) b + 1) (x :: a) (y :: b) :=
      ihinsert.trans (.single (.insert [] b y))
    have hreplace : Script (least a b + cost x y) (x :: a) (y :: b) := by
      by_cases hxy : x = y
      · subst hxy
        simpa [cost] using ihreplace.behind x
      · simpa [cost, hxy] using (ihreplace.behind x).trans (.single (.replace [] b x y))
    -- The least of the three is one of them.
    rcases min_choice (min (least a (y :: b) + 1) (least (x :: a) b + 1))
      (least a b + cost x y) with h | h
    · rw [h]
      rcases min_choice (least a (y :: b) + 1) (least (x :: a) b + 1) with h' | h'
      · rwa [h']
      · rwa [h']
    · rwa [h]

/-! ## The table -/

/-- The cells of a row behind the one for `back`, a beginning of the second string read backwards:
those for the beginnings that each byte of `rest` ends. The row is that of `a`, also read backwards. -/
def cells (a back : List UInt8) : List UInt8 → List Nat
  | [] => []
  | y :: rest => least a (y :: back) :: cells a (y :: back) rest

/-- A row of distances is followed by a row of distances. -/
theorem rowFrom_cells (x : UInt8) (a back rest : List UInt8) :
    rowFrom x (least (x :: a) back) (least a back) rest (cells a back rest) =
      cells (x :: a) back rest := by
  induction rest generalizing back with
  | nil => rfl
  | cons y rest ih =>
      have hcell : min (min (least a (y :: back) + 1) (least (x :: a) back + 1))
          (least a back + if x == y then 0 else 1) = least (x :: a) (y :: back) := by
        rw [least_cons_cons, cost]
      simp only [cells, rowFrom, hcell, ih]

/-- The row behind the one for a string is the one for the string with a byte before it. -/
theorem nextRow_cells (x : UInt8) (a b : List UInt8) :
    nextRow b (a.length :: cells a [] b) x = (x :: a).length :: cells (x :: a) [] b := by
  have hrow := rowFrom_cells x a [] b
  rw [least_nil_right, least_nil_right] at hrow
  simp only [nextRow, List.length_cons] at hrow ⊢
  rw [hrow]

theorem cells_nil (back rest : List UInt8) :
    cells [] back rest = List.range' (back.length + 1) rest.length := by
  induction rest generalizing back with
  | nil => rfl
  | cons y rest ih => simp [cells, ih, List.range'_succ]

/-- The row for no bytes. -/
theorem firstRow_eq (b : List UInt8) : firstRow b = 0 :: cells [] [] b := by
  rw [firstRow, List.range_eq_range', List.range'_succ, cells_nil, List.length_nil, Nat.zero_add]

/-- The last cell of a row is that of the whole second string. -/
theorem getLastD_cells (a back rest : List UInt8) :
    (least a back :: cells a back rest).getLastD 0 = least a (rest.reverse ++ back) := by
  induction rest generalizing back with
  | nil => rfl
  | cons y rest ih =>
      have hlast : (least a back :: cells a back (y :: rest)).getLastD 0 =
          (least a (y :: back) :: cells a (y :: back) rest).getLastD 0 := rfl
      rw [hlast, ih, List.reverse_cons, List.append_assoc]
      rfl

/-- The table is that of the recursion on the strings read backwards. -/
theorem foldl_nextRow (a b back : List UInt8) :
    a.foldl (nextRow b) (back.length :: cells back [] b) =
      (a.reverse ++ back).length :: cells (a.reverse ++ back) [] b := by
  -- `back` is what has been read of the first string, and the row at hand is its row.
  induction a generalizing back with
  | nil => rfl
  | cons x a ih =>
      rw [List.foldl_cons, nextRow_cells, ih, List.reverse_cons, List.append_assoc]
      rfl

end EditDistance

open EditDistance

variable {a b c : List UInt8}

/-- The rows go through both strings from the front, the recursion from the back. -/
theorem editDistance_eq_least (a b : List UInt8) :
    editDistance a b = least a.reverse b.reverse := by
  have hrows := foldl_nextRow a b []
  rw [List.append_nil, List.length_nil, ← firstRow_eq] at hrows
  have hlast := getLastD_cells a.reverse [] b
  rw [least_nil_right, List.append_nil] at hlast
  rw [editDistance, hrows, hlast]

/-- The distance is the length of a shortest script. -/
theorem isLeast_editDistance (a b : List UInt8) : IsLeast {n | Script n a b} (editDistance a b) := by
  rw [editDistance_eq_least]
  constructor
  · simpa using (script_least a.reverse b.reverse).reverse
  · intro n h
    exact (Script.reverse h).least_le

theorem editDistance_comm (a b : List UInt8) : editDistance a b = editDistance b a :=
  Nat.le_antisymm ((isLeast_editDistance a b).2 (isLeast_editDistance b a).1.symm)
    ((isLeast_editDistance b a).2 (isLeast_editDistance a b).1.symm)

theorem editDistance_eq_zero : editDistance a b = 0 ↔ a = b := by
  constructor
  · intro h
    exact Script.zero_iff.1 (h ▸ (isLeast_editDistance a b).1)
  · rintro rfl
    exact Nat.le_zero.1 ((isLeast_editDistance a a).2 Script.nil)

theorem editDistance_triangle (a b c : List UInt8) :
    editDistance a c ≤ editDistance a b + editDistance b c :=
  (isLeast_editDistance a c).2 ((isLeast_editDistance a b).1.trans (isLeast_editDistance b c).1)

end HeaderReflection
