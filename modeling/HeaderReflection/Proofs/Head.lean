/-
  HeaderReflection.Proofs.Head

  Where the head of a marked declaration ends. Keyword and body brace are
  searched from the marker on and no search goes past a brace or a semicolon,
  so the body opens at the first such token behind the marker.
-/
import HeaderReflection.Extraction
import HeaderReflection.Proofs.Stream

namespace HeaderReflection

namespace DeclHead

variable {s : TokenStream} {kind : DeclKind} {marker start i k : Nat}

/-! ## Tokens that end a head -/

/-- An identifier ends no head. -/
theorem endsHead_of_isIdent {name : Text} (h : s.isIdent i name) : endsHead s i = false := by
  simp [endsHead, TokenStream.isPunct_of_isIdent h]

theorem isIdent_of_isStructKeyword (h : isStructKeyword s i) : ∃ name, s.isIdent i name := by
  simp only [isStructKeyword, Bool.and_eq_true, Bool.or_eq_true] at h
  rcases h.1 with h | h
  · exact ⟨_, h⟩
  · exact ⟨_, h⟩

theorem isIdent_of_isEnumKeyword (h : isEnumKeyword s i) :
    (∃ name, s.isIdent i name) ∧ ∃ name, s.isIdent (i + 1) name := by
  simp only [isEnumKeyword, Bool.and_eq_true, Bool.or_eq_true] at h
  rcases h.2 with h' | h'
  · exact ⟨⟨_, h.1⟩, _, h'⟩
  · exact ⟨⟨_, h.1⟩, _, h'⟩

theorem searchHead_eq_some {test : Nat → Bool} :
    searchHead s marker test = some k ↔
      (marker < k ∧ k < s.size) ∧ endsHead s k = false ∧ test k ∧
        ∀ m, marker < m → m < k → endsHead s m = false ∧ test m = false := by
  rw [searchHead, TokenStream.indices, TokenStream.find?_takeWhile_range']
  simp only [Bool.not_eq_true', Nat.min_self, Nat.succ_le_iff]
  constructor
  · rintro ⟨hk, he, ht, hall⟩
    exact ⟨by omega, he, ht, hall⟩
  · rintro ⟨hk, he, ht, hall⟩
    exact ⟨by omega, he, ht, hall⟩

/-! ## Names -/

/-- A name ends between the start of the search and its end. -/
theorem nameEnd_bounds {stop : Nat} (hle : start ≤ stop) :
    start ≤ nameEnd s kind start stop ∧ nameEnd s kind start stop ≤ stop := by
  induction stop with
  | zero => exact ⟨hle, Nat.le_refl 0⟩
  | succ stop ih =>
      rw [nameEnd]
      split
      · next hback =>
          simp only [Bool.and_eq_true, decide_eq_true_eq] at hback
          have := ih hback.1
          omega
      · exact ⟨hle, Nat.le_refl _⟩

/-- A name ends with a word that is neither `final` nor the marker. -/
theorem nameEnd_of_name (hfinal : s.isIdent i "final".toList = false)
    (hmarker : s.isIdent i kind.marker = false) : nameEnd s kind start (i + 1) = i + 1 := by
  rw [nameEnd, if_neg]
  rw [hfinal, hmarker]
  simp

/-- A `final` or a marker is no part of the name. -/
theorem nameEnd_of_skipped (hle : start ≤ i)
    (h : s.isIdent i "final".toList ∨ s.isIdent i kind.marker) :
    nameEnd s kind start (i + 1) = nameEnd s kind start i := by
  rw [nameEnd, if_pos]
  simpa [hle] using h

/-- The end of a name is not right behind a marker. -/
theorem isIdent_marker_before_nameEnd {stop : Nat}
    (hlt : start < nameEnd s kind start stop) :
    s.isIdent (nameEnd s kind start stop - 1) kind.marker = false := by
  induction stop with
  | zero =>
      rw [nameEnd] at hlt
      omega
  | succ stop ih =>
      rw [nameEnd] at hlt ⊢
      split
      · next hskip =>
        rw [if_pos hskip] at hlt
        exact ih hlt
      · next hstay =>
        rw [if_neg hstay] at hlt
        have hle : start ≤ stop := Nat.le_of_lt_succ hlt
        simp only [hle, decide_true, Bool.true_and, Bool.or_eq_true, not_or, Bool.not_eq_true]
          at hstay
        exact hstay.2

/-- A name without qualifier starts with its last part. -/
theorem nameStartFrom_eq (h : i < start + 2) : nameStartFrom s start i = i := by
  match i with
  | 0 => rfl
  | 1 => rfl
  | i + 2 =>
      rw [nameStartFrom, if_neg]
      simp only [Bool.and_eq_true, decide_eq_true_eq]
      omega

/-- A name without a separator right before its last part starts with that part. -/
theorem nameStartFrom_of_isSeparator (h : s.isSeparator (i - 1) = false) :
    nameStartFrom s start i = i := by
  match i with
  | 0 => rfl
  | 1 => rfl
  | i + 2 =>
      have hseparator : s.isSeparator (i + 1) = false := h
      rw [nameStartFrom, if_neg]
      simp [hseparator]

/-- A name starts at its last part or before it. -/
theorem nameStartFrom_le : nameStartFrom s start i ≤ i := by
  induction i using Nat.strongRecOn with
  | ind i ih =>
      match i with
      | 0 => exact Nat.le_refl _
      | 1 => exact Nat.le_refl _
      | i + 2 =>
          rw [nameStartFrom]
          split
          · have := ih i (by omega)
            omega
          · exact Nat.le_refl _

/-- A name does not start before the search for it does. -/
theorem le_nameStartFrom (h : start ≤ i) : start ≤ nameStartFrom s start i := by
  induction i using Nat.strongRecOn with
  | ind i ih =>
      match i with
      | 0 => exact h
      | 1 => exact h
      | i + 2 =>
          rw [nameStartFrom]
          split
          · next hback =>
              simp only [Bool.and_eq_true, decide_eq_true_eq] at hback
              exact ih i (by omega) hback.1.1
          · exact h

/-- A head is read just when its body opens at the first token from `start` on that can end it, and a
word is left where the name ends. -/
theorem read_eq_ok {head : DeclHead} : read s kind marker start = .ok head ↔
    ∃ stop, (s.indices start s.size).find? (endsHead s) = some head.body ∧
      s.isPunct head.body '{' ∧
      nameEnd s kind start ((s.findPunct start head.body ':').getD head.body) = stop ∧
      stop ≠ start ∧ s.isWord (stop - 1) ∧
      head.nameStart = nameStartFrom s start (stop - 1) ∧
      head.name =
        ((List.range' head.nameStart (stop - head.nameStart)).map s.text).flatten := by
  obtain ⟨first, name, body⟩ := head
  simp only [read]
  cases hbody : ((s.indices start s.size).find? (endsHead s)).filter (s.isPunct · '{') with
  | none =>
      simp only [reduceCtorEq, false_iff, not_exists]
      rintro stop ⟨hfind, hbrace, -⟩
      rw [hfind, Option.filter_some, if_pos hbrace] at hbody
      simp at hbody
  | some found =>
      obtain ⟨hfind, hbrace⟩ := Option.filter_eq_some_iff.1 hbody
      simp only
      split
      · next hno =>
        simp only [reduceCtorEq, false_iff, not_exists]
        rintro stop ⟨hfind', -, hstop, hne, hword, -⟩
        obtain rfl := Option.some.inj (hfind.symm.trans hfind')
        rw [hstop] at hno
        simp [hne, hword] at hno
      · next hname =>
        simp only [Bool.or_eq_true, beq_iff_eq, Bool.not_eq_true', not_or, Bool.not_eq_false]
          at hname
        simp only [Except.ok.injEq, DeclHead.mk.injEq]
        constructor
        · rintro ⟨rfl, rfl, rfl⟩
          exact ⟨_, hfind, hbrace, rfl, hname.1, hname.2, rfl, rfl⟩
        · rintro ⟨stop, hfind', -, hstop, -, -, rfl, rfl⟩
          obtain rfl := Option.some.inj (hfind.symm.trans hfind')
          rw [hstop]
          exact ⟨rfl, rfl, rfl⟩

/-- A name of one word right before the body is read, with at most one token between it and the start
of the search. -/
theorem read_of_word {j : Nat} (hplain : ∀ k, start ≤ k → k ≤ j → ∀ c, s.isPunct k c = false)
    (hopen : s.isPunct (j + 1) '{') (hword : s.isWord j)
    (hfinal : s.isIdent j "final".toList = false) (hmarker : s.isIdent j kind.marker = false)
    (hle : start ≤ j) (hlt : j < start + 2) :
    read s kind marker start = .ok ⟨j, s.text j, j + 1⟩ := by
  -- No punctuation stands before the body, so the search ends there and finds no colon on its way.
  have hfind : (s.indices start s.size).find? (endsHead s) = some (j + 1) := by
    have hsize := TokenStream.lt_size_of_isPunct hopen
    refine TokenStream.find?_indices.2 ⟨⟨by omega, hsize, hsize⟩, ?_, fun k hk hkj => ?_⟩
    · simp [endsHead, hopen]
    · simp [endsHead, hplain k hk (by omega)]
  have hcolon : s.findPunct start (j + 1) ':' = none := by
    rw [TokenStream.findPunct, List.find?_eq_none]
    intro k hk
    obtain ⟨hk, hkj, -⟩ := TokenStream.mem_indices.1 hk
    simp [hplain k hk (by omega)]
  have hend : nameEnd s kind start (j + 1) = j + 1 := nameEnd_of_name hfinal hmarker
  refine read_eq_ok.2 ⟨j + 1, hfind, hopen, ?_, by omega, hword, (nameStartFrom_eq hlt).symm, ?_⟩
  · rw [hcolon]
    exact hend
  · simp

/-! ## From the marker to the body -/

/-- The keyword of a struct right behind its marker is found, if none stands before the marker. -/
theorem afterKeyword_of_next
    (hbefore : (decide (0 < marker) && isStructKeyword s (marker - 1)) = false)
    (hnext : isStructKeyword s (marker + 1)) : afterKeyword s .struct marker = .ok (marker + 2) := by
  have hsearch : searchHead s marker (isStructKeyword s) = some (marker + 1) := by
    obtain ⟨name, hname⟩ := isIdent_of_isStructKeyword hnext
    exact searchHead_eq_some.2 ⟨⟨by omega, TokenStream.lt_size_of_isIdent hname⟩,
      endsHead_of_isIdent hname, hnext, by omega⟩
  rw [afterKeyword, hbefore, hsearch]
  rfl

/-- The keyword of an enum right behind its marker is found, if none stands before the marker. -/
theorem afterKeyword_of_next_enum
    (hbefore : (decide (2 ≤ marker) && isEnumKeyword s (marker - 2)) = false)
    (hnext : isEnumKeyword s (marker + 1)) : afterKeyword s .enum marker = .ok (marker + 3) := by
  have hsearch : searchHead s marker (isEnumKeyword s) = some (marker + 1) := by
    obtain ⟨⟨name, hname⟩, -⟩ := isIdent_of_isEnumKeyword hnext
    exact searchHead_eq_some.2 ⟨⟨by omega, TokenStream.lt_size_of_isIdent hname⟩,
      endsHead_of_isIdent hname, hnext, by omega⟩
  rw [afterKeyword, hbefore, hsearch]
  rfl

/-- A keyword right behind the marker is found, or one before the marker is. -/
theorem exists_afterKeyword_struct (h : isStructKeyword s (marker + 1)) :
    ∃ start, afterKeyword s .struct marker = .ok start ∧ marker ≤ start ∧ start ≤ marker + 2 := by
  by_cases hbefore : (decide (0 < marker) && isStructKeyword s (marker - 1)) = true
  · exact ⟨marker, by rw [afterKeyword, if_pos hbefore], by omega, by omega⟩
  · rw [Bool.not_eq_true] at hbefore
    exact ⟨marker + 2, afterKeyword_of_next hbefore h, by omega, by omega⟩

theorem exists_afterKeyword_enum (h : isEnumKeyword s (marker + 1)) :
    ∃ start, afterKeyword s .enum marker = .ok start ∧ marker ≤ start ∧ start ≤ marker + 3 := by
  by_cases hbefore : (decide (2 ≤ marker) && isEnumKeyword s (marker - 2)) = true
  · exact ⟨marker + 1, by rw [afterKeyword, if_pos hbefore], by omega, by omega⟩
  · rw [Bool.not_eq_true] at hbefore
    exact ⟨marker + 3, afterKeyword_of_next_enum hbefore h, by omega, by omega⟩

/-- The search for the name of a struct whose keyword stands before its marker starts at the marker. -/
theorem afterKeyword_of_before (h : isStructKeyword s i) :
    afterKeyword s .struct (i + 1) = .ok (i + 1) := by
  rw [afterKeyword]
  simp [h]

/-- For an enum it starts behind the marker. -/
theorem afterKeyword_of_before_enum (h : isEnumKeyword s i) :
    afterKeyword s .enum (i + 2) = .ok (i + 3) := by
  rw [afterKeyword]
  simp [h]

/-- The token `o` opens the body of the declaration marked at `m`: it is an opening brace, and the
first token behind the marker that can end a head. -/
structure OpensBody (s : TokenStream) (m o : Nat) : Prop where
  lt : m < o
  brace : s.isPunct o '{'
  head : ∀ k, m < k → k < o → endsHead s k = false

theorem OpensBody.endsHead_body {m o : Nat} (h : OpensBody s m o) : endsHead s o := by
  simp [endsHead, h.brace]

/-- A marker has one body. -/
theorem OpensBody.unique {m o o' : Nat} (h : OpensBody s m o) (h' : OpensBody s m o') : o = o' := by
  -- Both are the first token behind the marker that can end a head.
  rcases Nat.lt_trichotomy o o' with hlt | heq | hgt
  · have hends := h.endsHead_body
    rw [h'.head o h.lt hlt] at hends
    cases hends
  · exact heq
  · have hends := h'.endsHead_body
    rw [h.head o' h'.lt hgt] at hends
    cases hends

/-- Between a marker and the end of its keyword no token ends the head. -/
theorem afterKeyword_bounds (hm : s.isIdent marker kind.marker)
    (h : afterKeyword s kind marker = .ok start) :
    marker ≤ start ∧ ∀ m, marker ≤ m → m < start → endsHead s m = false := by
  have hend := endsHead_of_isIdent hm
  cases kind with
  | struct =>
      simp only [afterKeyword] at h
      split at h
      · obtain rfl := Except.ok.inj h
        exact ⟨Nat.le_refl _, by omega⟩
      · split at h
        · next i hi =>
          obtain rfl := Except.ok.inj h
          obtain ⟨hlt, he, -, hall⟩ := searchHead_eq_some.1 hi
          refine ⟨by omega, fun m hm hmi => ?_⟩
          rcases Nat.eq_or_lt_of_le hm with rfl | hm
          · exact hend
          rcases Nat.eq_or_lt_of_le (Nat.le_of_lt_succ hmi) with rfl | hmi
          · exact he
          · exact (hall m hm hmi).1
        · simp at h
  | enum =>
      simp only [afterKeyword] at h
      split at h
      · obtain rfl := Except.ok.inj h
        refine ⟨by omega, fun m hm hmi => ?_⟩
        obtain rfl : marker = m := by omega
        exact hend
      · split at h
        · next i hi =>
          obtain rfl := Except.ok.inj h
          obtain ⟨hlt, he, ht, hall⟩ := searchHead_eq_some.1 hi
          -- The keyword has two tokens, and neither of them is punctuation.
          obtain ⟨-, _, hnext⟩ := isIdent_of_isEnumKeyword ht
          refine ⟨by omega, fun m hm hmi => ?_⟩
          rcases Nat.eq_or_lt_of_le hm with rfl | hm
          · exact hend
          rcases Nat.lt_trichotomy m i with hmi' | rfl | him
          · exact (hall m hm hmi').1
          · exact he
          · obtain rfl : m = i + 1 := by omega
            exact endsHead_of_isIdent hnext
        · simp at h

/-- The body of a head opens at the first token from its start on that can end it. -/
theorem read_body {head : DeclHead} (h : read s kind marker start = .ok head) :
    start ≤ head.body ∧ s.isPunct head.body '{' ∧
      ∀ m, start ≤ m → m < head.body → endsHead s m = false := by
  obtain ⟨-, hfind, hbrace, -⟩ := read_eq_ok.1 h
  obtain ⟨hb, -, hall⟩ := TokenStream.find?_indices.1 hfind
  exact ⟨hb.1, hbrace, hall⟩

/-- The name of a head starts behind its keyword and ends before its body, and before the colon of a
clause if there is one. -/
theorem read_nameStart {head : DeclHead} (h : read s kind marker start = .ok head) :
    start ≤ head.nameStart ∧ head.nameStart < head.body ∧
      ∀ colon, s.findPunct start head.body ':' = some colon → head.nameStart < colon := by
  have hbody := (read_body h).1
  obtain ⟨stop, -, -, hstop, hne, -, hfirst, -⟩ := read_eq_ok.1 h
  -- The search for the name goes back from the colon, or else from the body.
  have hbounds := s.getD_findPunct_bounds (c := ':') hbody
  generalize hclause : (s.findPunct start head.body ':').getD head.body = clause at hstop hbounds
  have hend : start ≤ nameEnd s kind start clause ∧ nameEnd s kind start clause ≤ clause :=
    nameEnd_bounds hbounds.1
  have hle : nameStartFrom s start (stop - 1) ≤ stop - 1 := nameStartFrom_le
  rw [hfirst]
  refine ⟨le_nameStartFrom (by omega), by omega, fun colon hcolon => ?_⟩
  obtain rfl : colon = clause := by simpa [hcolon] using hclause
  omega

/-- The head of the declaration that a marker belongs to. -/
def ofMarker (s : TokenStream) (kind : DeclKind) (marker : Nat) : Except ParseError DeclHead := do
  let start ← afterKeyword s kind marker
  read s kind marker start

theorem ofMarker_eq_ok {head : DeclHead} : ofMarker s kind marker = .ok head ↔
    ∃ start, afterKeyword s kind marker = .ok start ∧ read s kind marker start = .ok head :=
  bind_eq_ok

/-- Keyword and head together lead from a marker to the brace of its body. -/
theorem opensBody {head : DeclHead} (hm : s.isIdent marker kind.marker)
    (hstart : afterKeyword s kind marker = .ok start)
    (hread : read s kind marker start = .ok head) : OpensBody s marker head.body := by
  obtain ⟨hle, hkeyword⟩ := afterKeyword_bounds hm hstart
  obtain ⟨hsb, hbrace, hrest⟩ := read_body hread
  have hne : marker ≠ head.body := by
    intro heq
    have hword := TokenStream.isPunct_of_isIdent (c := '{') hm
    rw [heq, hbrace] at hword
    simp at hword
  refine ⟨by omega, hbrace, fun k hmk hkb => ?_⟩
  by_cases hk : k < start
  · exact hkeyword k (by omega) hk
  · exact hrest k (by omega) hkb

end DeclHead

/-! ## One declaration -/

variable {s : TokenStream} {scopes : ScopeTree} {marker o : Nat}

/-- A struct that is read has its body at the first token behind its marker that can end a head. -/
theorem opensBody_of_readStruct {d : StructDecl} (hm : s.isIdent marker DeclKind.struct.marker)
    (h : readStruct s scopes marker = .ok (d, o)) : DeclHead.OpensBody s marker o := by
  simp only [readStruct, bind_eq_ok] at h
  obtain ⟨start, hstart, head, hread, close, -, fields, -, h⟩ := h
  cases h
  exact DeclHead.opensBody hm hstart hread

/-- An enum that is read has its body at the first token behind its marker that can end a head. -/
theorem opensBody_of_readEnum {d : EnumDecl} (hm : s.isIdent marker DeclKind.enum.marker)
    (h : readEnum s scopes marker = .ok (d, o)) : DeclHead.OpensBody s marker o := by
  simp only [readEnum, bind_eq_ok] at h
  obtain ⟨start, hstart, head, hread, close, -, h⟩ := h
  cases h
  exact DeclHead.opensBody hm hstart hread

end HeaderReflection
