/-
  HeaderReflection.Proofs.Header.Heads

  The heads of printed declarations. The marker of a declaration leads to its
  keyword on either side, and from there to its name and its body.
-/
import HeaderReflection.Proofs.Head
import HeaderReflection.Proofs.Header.Symbols
import HeaderReflection.Proofs.Reading

namespace HeaderReflection

variable {s : TokenStream} {all us : List Symbol} {i j m start : Nat} {n : Name}

/-- No word stands right before index `i`. -/
def Fresh (all : List Symbol) (i : Nat) : Prop :=
  i = 0 ∨ ∃ m, all[i - 1]? = some (.mark m)

theorem Fresh.isIdent_eq (h : Fresh all i) (hs : Reads s all) (hi : 0 < i) (name : Text) :
    s.isIdent (i - 1) name = false := by
  rcases h with rfl | ⟨m, hm⟩
  · omega
  · rw [hs.isIdent_eq hm]
    rfl

theorem Fresh.of_standsAt {m : Mark} (h : StandsAt all i (.mark m :: us)) : Fresh all (i + 1) :=
  Or.inr ⟨m, h.head⟩

namespace DeclHead

/-! ## The name -/

theorem endsHead_eq_false (hs : Reads s all) {t : Symbol} (hi : all[i]? = some t)
    (ht : t.isMark = false) : endsHead s i = false := by
  simp [endsHead, hs.isPunct_eq hi, Symbol.kind_ne_of_isMark ht]

theorem isIdent_keyword (hs : Reads s all) {k : Keyword} (hi : all[i]? = some k.symbol)
    (k' : Keyword) : s.isIdent i k'.text = decide (k = k') := by
  rw [hs.isIdent_eq hi, Keyword.isNamed_symbol]

theorem isIdent_name (hs : Reads s all) (hi : all[i]? = some n.symbol) {k : Keyword}
    (hk : k ∈ Keyword.reserved) : s.isIdent i k.text = false := by
  rw [hs.isIdent_eq hi, n.isNamed_symbol hk]

/-- The name of a head stands right before the body, with at most one word between it and the start of
the search. -/
theorem read_of_name (hs : Reads s all) (hat : StandsAt all j (n.symbol :: .mark .openBrace :: us))
    (hword : ∃ t, all[start]? = some t ∧ t.isMark = false) (hle : start ≤ j) (hlt : j < start + 2)
    (kind : DeclKind) (marker : Nat) : read s kind marker start = .ok ⟨j, n.text, j + 1⟩ := by
  have hname := hat.head
  have hmarks : ∀ k, start ≤ k → k ≤ j → ∀ c, s.isPunct k c = false := by
    intro k hk hkj c
    obtain ⟨t, ht, hmark⟩ : ∃ t, all[k]? = some t ∧ t.isMark = false := by
      rcases Nat.eq_or_lt_of_le hk with rfl | hk
      · exact hword
      · obtain rfl : k = j := by omega
        exact ⟨_, hname, rfl⟩
    simp [hs.isPunct_eq ht, Symbol.kind_ne_of_isMark hmark]
  have hopen : s.isPunct (j + 1) '\x7b' := by
    rw [hs.isPunct_eq hat.tail.head]
    rfl
  have hfinal : s.isIdent j "final".toList = false := isIdent_name hs hname (k := .final)
    (by simp [Keyword.reserved])
  have hmarker : s.isIdent j kind.marker = false := by
    cases kind with
    | struct => exact isIdent_name hs hname (k := .reflectStruct) (by simp [Keyword.reserved])
    | enum => exact isIdent_name hs hname (k := .reflectEnum) (by simp [Keyword.reserved])
  have hread : read s kind marker start = .ok ⟨j, s.text j, j + 1⟩ :=
    read_of_word hmarks hopen (hs.isWord_eq hname) hfinal hmarker hle hlt
  have htext : s.text j = n.text := hs.text_eq hname
  rwa [htext] at hread

/-! ## The keyword -/

/-- What stands before a declaration is no keyword of a struct. -/
theorem isStructKeyword_of_fresh (hs : Reads s all) (h : Fresh all i) :
    (decide (0 < i) && isStructKeyword s (i - 1)) = false := by
  by_cases hi : 0 < i
  · simp [isStructKeyword, h.isIdent_eq hs hi]
  · simp [hi]

theorem isStructKeyword_of_keyword (hs : Reads s all) {isClass : Bool}
    (hi : all[i]? = some (Keyword.symbol (if isClass then .classWord else .struct)))
    (hbefore : (decide (0 < i) && s.isIdent (i - 1) Keyword.enum.text) = false) :
    isStructKeyword s i := by
  have hkeyword : (s.isIdent i Keyword.struct.text ||
      s.isIdent i Keyword.classWord.text) = true := by
    rw [isIdent_keyword hs hi, isIdent_keyword hs hi]
    cases isClass <;> rfl
  show ((s.isIdent i Keyword.struct.text || s.isIdent i Keyword.classWord.text) &&
    !(decide (0 < i) && s.isIdent (i - 1) Keyword.enum.text)) = true
  rw [hkeyword, hbefore]
  rfl

/-- What stands before a declaration is no keyword of an enum. -/
theorem isEnumKeyword_of_fresh (hs : Reads s all) (h : Fresh all i) :
    (decide (2 ≤ i) && isEnumKeyword s (i - 2)) = false := by
  by_cases hi : 2 ≤ i
  · have hnext : i - 2 + 1 = i - 1 := by omega
    simp [isEnumKeyword, hnext, h.isIdent_eq hs (by omega)]
  · simp [hi]

theorem isEnumKeyword_of_keywords (hs : Reads s all) (hi : all[i]? = some Keyword.enum.symbol)
    (hi' : all[i + 1]? = some Keyword.classWord.symbol) : isEnumKeyword s i := by
  show (s.isIdent i Keyword.enum.text &&
    (s.isIdent (i + 1) Keyword.classWord.text || s.isIdent (i + 1) Keyword.struct.text)) = true
  rw [isIdent_keyword hs hi, isIdent_keyword hs hi']
  rfl

/-- The marker at index `m` leads to the head of `n` symbols from index `i` on. -/
structure LeadsTo (s : TokenStream) (kind : DeclKind) (m i n : Nat) (name : Text) : Prop where
  le : i ≤ m
  lt : m < i + n
  isMarker : s.isIdent m kind.marker
  first : ∀ k, i ≤ k → k < m → s.isIdent k kind.marker = false
  head : ∃ start j, afterKeyword s kind m = .ok start ∧ (i ≤ j ∧ j < i + n) ∧
    read s kind m start = .ok ⟨j, name, i + n⟩

/-- A marker leads to the head whose name stands where the search behind its keyword starts, or one
token behind. -/
theorem LeadsTo.of_name {kind : DeclKind} {len : Nat} (hs : Reads s all)
    (hat : StandsAt all j (n.symbol :: .mark .openBrace :: us)) (hmarker : s.isIdent m kind.marker)
    (hbounds : i ≤ m ∧ m < j) (hfirst : ∀ k, i ≤ k → k < m → s.isIdent k kind.marker = false)
    (hstart : afterKeyword s kind m = .ok start)
    (hword : ∃ t, all[start]? = some t ∧ t.isMark = false)
    (hsearch : start ≤ j ∧ j < start + 2) (hlen : i + len = j + 1) :
    LeadsTo s kind m i len n.text := by
  refine ⟨hbounds.1, by omega, hmarker, hfirst, start, j, hstart, by omega, ?_⟩
  rw [hlen]
  exact read_of_name hs hat hword hsearch.1 hsearch.2 kind m

/-- The marker of a struct leads to its head. -/
theorem exists_leadsTo_struct (hs : Reads s all) (head : StructHead)
    (hmarked : head.marking ≠ .unmarked) (hfresh : Fresh all i)
    (hat : StandsAt all i (head.symbols ++ .mark .openBrace :: us)) :
    ∃ m, LeadsTo s .struct m i head.symbols.length head.name.text := by
  obtain ⟨marking, isClass, n⟩ := head
  cases marking with
  | unmarked => exact absurd rfl hmarked
  | beforeKeyword =>
      have hmarker : all[i]? = some Keyword.reflectStruct.symbol := hat.head
      have hkeyword := hat.tail.head
      have hname := hat.tail.tail
      have hkey : isStructKeyword s (i + 1) := by
        refine isStructKeyword_of_keyword hs hkeyword ?_
        rw [Nat.add_sub_cancel, isIdent_keyword hs hmarker]
        simp
      have hstart : afterKeyword s .struct i = .ok (i + 2) :=
        afterKeyword_of_next (isStructKeyword_of_fresh hs hfresh) hkey
      have hident : s.isIdent i DeclKind.struct.marker :=
        (isIdent_keyword hs hmarker .reflectStruct).trans (by decide)
      exact ⟨i, .of_name hs hname hident (by omega) (by omega) hstart ⟨_, hname.head, rfl⟩
        (by omega) (by simp [StructHead.symbols, Marking.symbols])⟩
  | behindKeyword =>
      have hkeyword := hat.head
      have hmarker : all[i + 1]? = some Keyword.reflectStruct.symbol := hat.tail.head
      have hkey : isStructKeyword s i := by
        refine isStructKeyword_of_keyword hs hkeyword ?_
        by_cases hi : 0 < i
        · simp [hfresh.isIdent_eq hs hi]
        · simp [hi]
      have hstart : afterKeyword s .struct (i + 1) = .ok (i + 1) := afterKeyword_of_before hkey
      have hident : s.isIdent (i + 1) DeclKind.struct.marker :=
        (isIdent_keyword hs hmarker .reflectStruct).trans (by decide)
      have hfirst : ∀ k, i ≤ k → k < i + 1 → s.isIdent k DeclKind.struct.marker = false := by
        intro k hik hk
        obtain rfl : k = i := by omega
        refine (isIdent_keyword hs hkeyword .reflectStruct).trans ?_
        cases isClass <;> rfl
      -- The search for the name starts at the marker itself.
      exact ⟨i + 1, .of_name hs hat.tail.tail hident (by omega) hfirst hstart ⟨_, hmarker, rfl⟩
        (by omega) (by simp [StructHead.symbols, Marking.symbols])⟩

/-- The marker of an enum leads to its head. -/
theorem exists_leadsTo_enum (hs : Reads s all) (head : EnumHead)
    (hmarked : head.marking ≠ .unmarked) (hfresh : Fresh all i)
    (hat : StandsAt all i (head.symbols ++ .mark .openBrace :: us)) :
    ∃ m, LeadsTo s .enum m i head.symbols.length head.name.text := by
  cases head with
  | plain n => exact absurd rfl hmarked
  | enumClass marking n =>
  cases marking with
  | unmarked => exact absurd rfl hmarked
  | beforeKeyword =>
      have hmarker : all[i]? = some Keyword.reflectEnum.symbol := hat.head
      have henum : all[i + 1]? = some Keyword.enum.symbol := hat.tail.head
      have hclass : all[i + 2]? = some Keyword.classWord.symbol := hat.tail.tail.head
      have hname := hat.tail.tail.tail
      have hkey : isEnumKeyword s (i + 1) := isEnumKeyword_of_keywords hs henum hclass
      have hstart : afterKeyword s .enum i = .ok (i + 3) :=
        afterKeyword_of_next_enum (isEnumKeyword_of_fresh hs hfresh) hkey
      have hident : s.isIdent i DeclKind.enum.marker :=
        (isIdent_keyword hs hmarker .reflectEnum).trans (by decide)
      exact ⟨i, .of_name hs hname hident (by omega) (by omega) hstart ⟨_, hname.head, rfl⟩
        (by omega) (by simp [EnumHead.symbols, EnumHead.marking, EnumHead.keywords,
          Marking.symbols])⟩
  | behindKeyword =>
      have henum : all[i]? = some Keyword.enum.symbol := hat.head
      have hclass : all[i + 1]? = some Keyword.classWord.symbol := hat.tail.head
      have hmarker : all[i + 2]? = some Keyword.reflectEnum.symbol := hat.tail.tail.head
      have hname := hat.tail.tail.tail
      have hkey : isEnumKeyword s i := isEnumKeyword_of_keywords hs henum hclass
      -- Other than for a struct, the search for the name starts behind the marker.
      have hstart : afterKeyword s .enum (i + 2) = .ok (i + 3) := afterKeyword_of_before_enum hkey
      have hident : s.isIdent (i + 2) DeclKind.enum.marker :=
        (isIdent_keyword hs hmarker .reflectEnum).trans (by decide)
      have hfirst : ∀ k, i ≤ k → k < i + 2 → s.isIdent k DeclKind.enum.marker = false := by
        intro k hik hk
        obtain rfl | rfl : k = i ∨ k = i + 1 := by omega
        · exact (isIdent_keyword hs henum .reflectEnum).trans (by decide)
        · exact (isIdent_keyword hs hclass .reflectEnum).trans (by decide)
      exact ⟨i + 2, .of_name hs hname hident (by omega) hfirst hstart ⟨_, hname.head, rfl⟩
        (by omega) (by simp [EnumHead.symbols, EnumHead.marking, EnumHead.keywords,
          Marking.symbols])⟩

end DeclHead

end HeaderReflection
