/-
  HeaderReflection.Proofs.TextBytes

  The bytes of a text. The UTF-8 form keeps the order of the characters, and no
  form is the beginning of another one; so texts are ordered like their bytes,
  and texts with the same bytes are the same.
-/
import HeaderReflection.Text
import Mathlib.Data.List.Basic

namespace HeaderReflection.Text

variable {a b : Text} {c d : Char}

@[simp] theorem bytes_nil : bytes [] = [] := rfl

@[simp] theorem bytes_cons (c : Char) (s : Text) :
    bytes (c :: s) = String.utf8EncodeChar c ++ bytes s := rfl

@[simp] theorem bytes_append (s t : Text) : bytes (s ++ t) = bytes s ++ bytes t :=
  List.flatMap_append

/-! ## One character -/

/-- The order of byte strings by the values of their first bytes. -/
theorem ofNat_cons_lt_cons {m n : Nat} {l l' : List UInt8} (hm : m < 256) (hn : n < 256) :
    UInt8.ofNat m :: l < UInt8.ofNat n :: l' ↔ m < n ∨ m = n ∧ l < l' := by
  rw [List.cons_lt_cons_iff, UInt8.lt_iff_toNat_lt, ← UInt8.toNat_inj,
    UInt8.toNat_ofNat_of_lt' hm, UInt8.toNat_ofNat_of_lt' hn]

/-- The bytes of a smaller character come first, whatever follows them. -/
theorem utf8EncodeChar_append_lt (h : c < d) (s t : List UInt8) :
    String.utf8EncodeChar c ++ s < String.utf8EncodeChar d ++ t := by
  have hv : c.val.toNat < d.val.toNat := h
  have hd : d.val.toNat < 1114112 := by
    rcases d.valid with hd | ⟨-, hd⟩
    · exact Nat.lt_trans hd (by decide)
    · exact hd
  rw [String.utf8EncodeChar.eq_1, String.utf8EncodeChar.eq_1]
  generalize c.val.toNat = v at hv ⊢
  generalize d.val.toNat = w at hv hd ⊢
  by_cases hfour : v ≤ 65535
  · split_ifs <;>
      simp (disch := omega) only [List.cons_append, List.nil_append, ofNat_cons_lt_cons] <;> omega
  · -- Of two forms of four bytes, the first group of bits that differs decides.
    have hlow : v / 4096 < w / 4096 ∨ v / 4096 = w / 4096 ∧
        (v / 64 % 64 < w / 64 % 64 ∨ v / 64 % 64 = w / 64 % 64 ∧ v % 64 < w % 64) := by
      omega
    have hhigh : v / 262144 % 8 < w / 262144 % 8 ∨ v / 262144 % 8 = w / 262144 % 8 ∧
        (v / 4096 % 64 < w / 4096 % 64 ∨ v / 4096 = w / 4096) := by
      omega
    rw [if_neg (by omega), if_neg (by omega), if_neg hfour, if_neg (by omega), if_neg (by omega),
      if_neg (by omega)]
    simp (disch := omega) only [List.cons_append, List.nil_append, ofNat_cons_lt_cons,
      Nat.add_lt_add_iff_right, Nat.add_right_cancel_iff]
    omega

/-! ## Whole texts -/

/-- The order of texts is that of their bytes. -/
theorem bytes_lt_of_compare (h : compare a b = .lt) : bytes a < bytes b := by
  induction a generalizing b with
  | nil =>
      cases b with
      | nil => simp at h
      | cons d b =>
        rw [bytes_nil, bytes_cons]
        cases hbytes : String.utf8EncodeChar d with
        | nil => exact absurd hbytes String.utf8EncodeChar_ne_nil
        | cons x l => exact List.nil_lt_cons _ _
  | cons c a ih =>
      cases b with
      | nil => simp at h
      | cons d b =>
        rw [List.compare_cons_cons, Ordering.then_eq_lt] at h
        rw [bytes_cons, bytes_cons]
        rcases h with hlt | ⟨heq, hlt⟩
        · exact utf8EncodeChar_append_lt (compareOfLessAndEq_eq_lt.1 hlt) _ _
        · obtain rfl := Std.LawfulEqOrd.eq_of_compare heq
          exact List.append_left_lt (ih hlt)

/-- Texts with the same bytes are the same. -/
theorem bytes_inj : bytes a = bytes b ↔ a = b := by
  refine ⟨fun h => ?_, congrArg bytes⟩
  cases hcompare : compare a b with
  | lt =>
    have hlt := bytes_lt_of_compare hcompare
    rw [h] at hlt
    exact absurd hlt (List.lt_irrefl _)
  | eq => exact Std.LawfulEqOrd.eq_of_compare hcompare
  | gt =>
    have hlt := bytes_lt_of_compare (Std.OrientedCmp.lt_of_gt hcompare)
    rw [h] at hlt
    exact absurd hlt (List.lt_irrefl _)

end HeaderReflection.Text
