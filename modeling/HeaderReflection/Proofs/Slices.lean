/-
  HeaderReflection.Proofs.Slices

  Byte slices of a text that is put together from parts, and which characters
  they hold.
-/
import HeaderReflection.Text
import Mathlib.Data.List.Basic

namespace HeaderReflection.Text

variable {s t u : Text} {i j n : Nat}

/-! ## From a byte on and up to a byte -/

theorem fromByte_append (s t : Text) (n : Nat) : fromByte (s.size + n) (s ++ t) = fromByte n t := by
  induction s with
  | nil => simp
  | cons c s ih =>
      have hpos := c.utf8Size_pos
      obtain ⟨m, hm⟩ : ∃ m, size (c :: s) + n = m + 1 :=
        ⟨size (c :: s) + n - 1, by rw [size_cons]; omega⟩
      have hrest : m + 1 - c.utf8Size = size s + n := by
        rw [size_cons] at hm
        omega
      rw [hm, List.cons_append, fromByte, hrest, ih]

/-- Behind the bytes of the first text the second one starts. -/
theorem fromByte_size_append (s t : Text) : fromByte s.size (s ++ t) = t := by
  have h := fromByte_append s t 0
  rwa [Nat.add_zero, fromByte] at h

/-- The bytes that the first part does not have are taken from the second. -/
theorem uptoByte_append (n : Nat) (s t : Text) :
    uptoByte n (s ++ t) = uptoByte n s ++ uptoByte (n - s.size) t := by
  induction s generalizing n with
  | nil => cases n <;> simp [uptoByte]
  | cons c s ih =>
      cases n with
      | zero => simp [uptoByte]
      | succ n =>
          rw [List.cons_append, uptoByte, uptoByte, ih, size_cons, Nat.sub_sub, List.cons_append]

theorem uptoByte_of_size_le (h : s.size ≤ n) : uptoByte n s = s := by
  fun_induction uptoByte n s with
  | case1 s =>
      cases s with
      | nil => rfl
      | cons c s =>
          have := c.utf8Size_pos
          rw [size_cons] at h
          omega
  | case2 => rfl
  | case3 n c r ih =>
      rw [size_cons] at h
      rw [ih (by omega)]

theorem uptoByte_size_append (s t : Text) : uptoByte s.size (s ++ t) = s := by
  rw [uptoByte_append, uptoByte_of_size_le (Nat.le_refl _), Nat.sub_self, uptoByte, List.append_nil]

/-! ## Slices -/

/-- The bytes of the middle part. -/
theorem slice_append (s t u : Text) : slice s.size (s.size + t.size) (s ++ (t ++ u)) = t := by
  rw [slice, fromByte_size_append, Nat.add_sub_cancel_left, uptoByte_size_append]

/-- Bytes before a text move its slices. -/
theorem slice_append_right (u s : Text) (i j : Nat) :
    slice (u.size + i) (u.size + j) (u ++ s) = slice i j s := by
  rw [slice, slice, fromByte_append, Nat.add_sub_add_left]

/-- A slice that starts behind a character and ends in the first part is one of that part. -/
theorem slice_append_left (h : j ≤ size (u ++ s)) (t : Text) :
    slice u.size j (u ++ s ++ t) = slice u.size j (u ++ s) := by
  rw [size_append] at h
  have hnone : j - u.size - s.size = 0 := by omega
  rw [slice, slice, List.append_assoc, fromByte_size_append, fromByte_size_append, uptoByte_append,
    hnone, uptoByte, List.append_nil]

/-! ## The characters of a slice -/

theorem uptoByte_subset (n : Nat) (s : Text) : uptoByte n s ⊆ s := by
  fun_induction uptoByte n s with
  | case1 s => exact List.nil_subset s
  | case2 => exact List.Subset.refl []
  | case3 n c r ih => exact List.cons_subset_cons c ih

end HeaderReflection.Text
