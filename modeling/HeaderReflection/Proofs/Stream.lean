/-
  HeaderReflection.Proofs.Stream

  What the look-ups of a token stream find. A search gives the first index in
  its range that passes its test, and a search that stops at an end token gives
  it only if no end token stands before it.
-/
import HeaderReflection.Token.Cursor
import Mathlib.Data.List.Basic

namespace HeaderReflection

/-- A step that succeeds goes on with what it gave. -/
theorem bind_eq_ok {ε α β : Type} {x : Except ε α} {f : α → Except ε β} {b : β} :
    x >>= f = .ok b ↔ ∃ a, x = .ok a ∧ f a = .ok b := by
  cases x with
  | error e => simp [bind, Except.bind]
  | ok a => simp [bind, Except.bind]

/-- A failure is that of the first step or of what goes on from it. -/
theorem bind_eq_error {ε α β : Type} {x : Except ε α} {f : α → Except ε β} {e : ε} :
    x >>= f = .error e ↔ x = .error e ∨ ∃ a, x = .ok a ∧ f a = .error e := by
  cases x with
  | error e' => simp [bind, Except.bind]
  | ok a => simp [bind, Except.bind]

/-- A step that is followed by a computation alone fails where it fails. -/
theorem bind_pure_eq_error {ε α β : Type} {x : Except ε α} {f : α → β} {e : ε} :
    (x >>= fun a => pure (f a)) = .error e ↔ x = .error e := by
  simp [bind_eq_error, pure, Except.pure]

/-- What stands before and behind an element of a list. -/
theorem exists_append_of_getElem? {α : Type} {l : List α} {i : Nat} {x : α} (h : l[i]? = some x) :
    ∃ front back, l = front ++ x :: back ∧ front.length = i := by
  obtain ⟨hi, rfl⟩ := List.getElem?_eq_some_iff.1 h
  refine ⟨l.take i, l.drop (i + 1), ?_, List.length_take_of_le (Nat.le_of_lt hi)⟩
  rw [← List.drop_eq_getElem_cons, List.take_append_drop]

namespace TokenStream

variable {s : TokenStream} {i j k : Nat} {name : Text} {c d : Char}

/-! ## Tests -/

theorem lt_size_of_token? {t : Token} (h : s.token? i = some t) : i < s.size :=
  (Array.getElem?_eq_some_iff.1 h).1

theorem isIdent_iff :
    s.isIdent i name ↔ ∃ t, s.token? i = some t ∧ t.kind = .ident ∧ t.lexeme = name := by
  simp [isIdent, Token.isIdent, Option.any_eq_true]

theorem isPunct_iff : s.isPunct i c ↔ ∃ t, s.token? i = some t ∧ t.kind = .punct c := by
  simp [isPunct, Token.isPunct, Option.any_eq_true]

theorem lt_size_of_isIdent (h : s.isIdent i name) : i < s.size := by
  obtain ⟨t, ht, -⟩ := isIdent_iff.1 h
  exact lt_size_of_token? ht

theorem lt_size_of_isPunct (h : s.isPunct i c) : i < s.size := by
  obtain ⟨t, ht, -⟩ := isPunct_iff.1 h
  exact lt_size_of_token? ht

/-- A token is at most one punctuation character. -/
theorem eq_of_isPunct (hc : s.isPunct i c) (hd : s.isPunct i d) : c = d := by
  obtain ⟨t, ht, hk⟩ := isPunct_iff.1 hc
  obtain ⟨u, hu, hl⟩ := isPunct_iff.1 hd
  obtain rfl : t = u := Option.some.inj (ht.symm.trans hu)
  simpa [hk] using hl

/-- An identifier is no punctuation. -/
theorem isPunct_of_isIdent (h : s.isIdent i name) : s.isPunct i c = false := by
  obtain ⟨t, ht, hk, -⟩ := isIdent_iff.1 h
  simp [isPunct, Token.isPunct, ht, hk]

/-! ## Searches -/

/-- A search that stops at the first index failing `q` gives `k` if everything before `k` passes `q`
but not `p`, and `k` passes both. -/
theorem find?_takeWhile_range' {p q : Nat → Bool} {n : Nat} :
    ((List.range' i n).takeWhile q).find? p = some k ↔
      (i ≤ k ∧ k < i + n) ∧ q k ∧ p k ∧ ∀ m, i ≤ m → m < k → q m ∧ p m = false := by
  induction n generalizing i with
  | zero =>
    constructor
    · intro h
      cases h
    · rintro ⟨⟨hik, hkn⟩, -⟩
      omega
  | succ n ih =>
    rw [List.range'_succ, List.takeWhile_cons]
    -- The search ends at `i` if the index passes `p` or fails `q`, and else goes on behind it.
    by_cases hq : q i
    · rw [if_pos hq, List.find?_cons]
      by_cases hp : p i
      · simp only [hp, Option.some.injEq]
        constructor
        · rintro rfl
          exact ⟨by omega, hq, hp, by omega⟩
        · rintro ⟨⟨hik, -⟩, -, -, hall⟩
          rcases Nat.eq_or_lt_of_le hik with rfl | hlt
          · rfl
          · have := (hall i (Nat.le_refl i) hlt).2
            simp [hp] at this
      · simp only [Bool.not_eq_true] at hp
        simp only [hp, ih]
        constructor
        · rintro ⟨⟨hik, hkn⟩, hqk, hpk, hall⟩
          refine ⟨by omega, hqk, hpk, fun m hm hmk => ?_⟩
          rcases Nat.eq_or_lt_of_le hm with rfl | hm
          · exact ⟨hq, hp⟩
          · exact hall m hm hmk
        · rintro ⟨⟨hik, hkn⟩, hqk, hpk, hall⟩
          have hne : i ≠ k := by
            rintro rfl
            simp [hp] at hpk
          exact ⟨by omega, hqk, hpk, fun m hm hmk => hall m (by omega) hmk⟩
    · rw [if_neg hq]
      simp only [List.find?_nil, reduceCtorEq, false_iff, not_and]
      rintro ⟨hik, -⟩ hqk - hall
      rcases Nat.eq_or_lt_of_le hik with rfl | hlt
      · exact hq hqk
      · exact hq (hall i (Nat.le_refl i) hlt).1

/-- A search gives the first index that passes its test. -/
theorem find?_indices {p : Nat → Bool} :
    (s.indices i j).find? p = some k ↔
      (i ≤ k ∧ k < j ∧ k < s.size) ∧ p k ∧ ∀ m, i ≤ m → m < k → p m = false := by
  rw [indices, List.find?_range'_eq_some, List.mem_range'_1]
  constructor
  · rintro ⟨hp, hk, hall⟩
    exact ⟨by omega, hp, by simpa using hall⟩
  · rintro ⟨hk, hp, hall⟩
    exact ⟨hp, by omega, by simpa using hall⟩

theorem findIdent_eq_some :
    s.findIdent i j name = some k ↔
      (i ≤ k ∧ k < j) ∧ s.isIdent k name ∧ ∀ m, i ≤ m → m < k → s.isIdent m name = false := by
  rw [findIdent, find?_indices]
  constructor
  · rintro ⟨hk, hi, hall⟩
    exact ⟨by omega, hi, hall⟩
  · rintro ⟨hk, hi, hall⟩
    exact ⟨⟨hk.1, hk.2, lt_size_of_isIdent hi⟩, hi, hall⟩

theorem findIdent_eq_none :
    s.findIdent i j name = none ↔ ∀ m, i ≤ m → m < j → s.isIdent m name = false := by
  simp only [findIdent, List.find?_eq_none, mem_indices, Bool.not_eq_true, and_imp]
  constructor
  · intro h m him hmj
    by_cases hm : m < s.size
    · exact h m him hmj hm
    · exact Bool.eq_false_iff.2 fun hi => hm (lt_size_of_isIdent hi)
  · intro h m him hmj _
    exact h m him hmj

/-- No identifier `name` is left from `i` on. -/
theorem findIdent_size_eq_none :
    s.findIdent i s.size name = none ↔ ∀ m, i ≤ m → s.isIdent m name = false := by
  rw [findIdent_eq_none]
  constructor
  · intro h m hm
    by_cases hms : m < s.size
    · exact h m hm hms
    · exact Bool.eq_false_iff.2 fun hi => hms (lt_size_of_isIdent hi)
  · intro h m hm _
    exact h m hm

/-- A search goes past a token that is not what it looks for. -/
theorem findIdent_succ (h : s.isIdent i name = false) :
    s.findIdent i j name = s.findIdent (i + 1) j name := by
  cases hfind : s.findIdent (i + 1) j name with
  | none =>
      rw [findIdent_eq_none] at hfind ⊢
      intro m him hmj
      rcases Nat.eq_or_lt_of_le him with rfl | him
      · exact h
      · exact hfind m him hmj
  | some k =>
      rw [findIdent_eq_some] at hfind ⊢
      obtain ⟨⟨hik, hkj⟩, hk, hall⟩ := hfind
      refine ⟨⟨by omega, hkj⟩, hk, fun m him hmk => ?_⟩
      rcases Nat.eq_or_lt_of_le him with rfl | him
      · exact h
      · exact hall m him hmk

/-- A search that ends with its range, unless it finds something, ends in its range. -/
theorem getD_findPunct_bounds (h : i ≤ j) :
    i ≤ (s.findPunct i j c).getD j ∧ (s.findPunct i j c).getD j ≤ j := by
  cases hfind : s.findPunct i j c with
  | none => exact ⟨h, Nat.le_refl j⟩
  | some k =>
      obtain ⟨hik, hkj, -⟩ := findPunct_bounds hfind
      exact ⟨hik, Nat.le_of_lt hkj⟩

/-- What a search looks for is found where it stands, or before. -/
theorem exists_findPunct_le (hk : s.isPunct k c) (hik : i ≤ k) (hkj : k < j) :
    ∃ m, s.findPunct i j c = some m ∧ m ≤ k := by
  cases hfind : s.findPunct i j c with
  | none =>
      rw [findPunct, List.find?_eq_none] at hfind
      exact absurd hk (hfind k (mem_indices.2 ⟨hik, hkj, lt_size_of_isPunct hk⟩))
  | some m =>
      obtain ⟨-, -, hall⟩ := find?_indices.1 hfind
      refine ⟨m, rfl, ?_⟩
      by_contra hlt
      simp [hall k hik (by omega)] at hk

theorem findPunct_eq_some :
    s.findPunct i j c = some k ↔
      (i ≤ k ∧ k < j) ∧ s.isPunct k c ∧ ∀ m, i ≤ m → m < k → s.isPunct m c = false := by
  rw [findPunct, find?_indices]
  constructor
  · rintro ⟨hk, hp, hall⟩
    exact ⟨by omega, hp, hall⟩
  · rintro ⟨hk, hp, hall⟩
    exact ⟨⟨hk.1, hk.2, lt_size_of_isPunct hp⟩, hp, hall⟩

theorem findPunct_eq_none :
    s.findPunct i j c = none ↔ ∀ m, i ≤ m → m < j → s.isPunct m c = false := by
  constructor
  · intro h m him hmj
    by_contra hm
    obtain ⟨k, hk, -⟩ := exists_findPunct_le (Bool.not_eq_false _ ▸ hm) him hmj
    simp [h] at hk
  · intro h
    cases hfind : s.findPunct i j c with
    | none => rfl
    | some k =>
        obtain ⟨⟨hik, hkj⟩, hk, -⟩ := findPunct_eq_some.1 hfind
        simp [h k hik hkj] at hk

/-- A search stops where it begins if what it looks for stands there. -/
theorem findIdent_self (h : s.isIdent i name) (hij : i < j) : s.findIdent i j name = some i :=
  findIdent_eq_some.2 ⟨⟨Nat.le_refl i, hij⟩, h, by omega⟩

end TokenStream

/-! ## The cursor -/

namespace Cursor

variable {α : Type} {s : TokenStream} {name : Text} {pos m : Nat}
variable {read : Nat → Except ParseError (α × Nat)}

/-- Without a further identifier there is nothing to read. -/
theorem collect_of_none (h : s.findIdent pos s.size name = none) :
    collect name read ⟨s, pos⟩ = .ok [] := by
  rw [collect, nextIdent]
  simp only
  split
  · rfl
  · next hnext => simp [h] at hnext

/-- The next identifier is read, and the run goes on where the reading asks, but behind it. -/
theorem collect_of_some (h : s.findIdent pos s.size name = some m) :
    collect name read ⟨s, pos⟩ = do
      let (a, resume) ← read m
      let rest ← collect name read ⟨s, max (m + 1) resume⟩
      return a :: rest := by
  rw [collect, nextIdent]
  simp only
  split
  · next hnext => simp [h] at hnext
  · next found next hnext =>
    simp only [h, Prod.mk.injEq, Option.some.injEq] at hnext
    obtain ⟨rfl, rfl⟩ := hnext
    rfl

/-- A collection depends on what is read at the identifiers alone. -/
theorem collect_congr {read' : Nat → Except ParseError (α × Nat)}
    (h : ∀ m, s.isIdent m name → read m = read' m) :
    collect name read ⟨s, pos⟩ = collect name read' ⟨s, pos⟩ := by
  -- Every step takes the cursor forward, so the induction is on what lies before it.
  induction hn : s.size - pos using Nat.strongRecOn generalizing pos with
  | ind n ih =>
      cases hfind : s.findIdent pos s.size name with
      | none => rw [collect_of_none hfind, collect_of_none hfind]
      | some m =>
          obtain ⟨⟨hpos, hsize⟩, hm, -⟩ := TokenStream.findIdent_eq_some.1 hfind
          rw [collect_of_some hfind, collect_of_some hfind, h m hm]
          apply bind_congr
          intro (a, resume)
          show (collect name read ⟨s, max (m + 1) resume⟩ >>= fun rest => pure (a :: rest)) = _
          rw [ih (s.size - max (m + 1) resume) (by omega) rfl]

end Cursor

end HeaderReflection
