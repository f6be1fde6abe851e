/-
  HeaderReflection.Proofs.Joined.Part

  A token stream as a part of a longer one. A semicolon stands before it, and
  one at its end if something follows, so what is looked for from a token of
  the part on is found in the part, or not found in the longer stream either.
-/
import HeaderReflection.Proofs.Joined.Scan
import HeaderReflection.Proofs.SpacingPass
import Mathlib.Data.List.Find

namespace HeaderReflection

/-- The stream `p` is the part of `s` that starts at token `n` and at byte `k`. -/
structure PartOf (p s : TokenStream) (n k : Nat) : Prop where
  le : n + p.size ≤ s.size
  token : ∀ i, i < p.size → s.token? (n + i) = (p.token? i).map (Token.shift k)
  text : ∀ i j, i ≤ j → j < p.size → s.textBetween (n + i) (n + j) = p.textBetween i j
  closer : ∀ i, i < p.size → s.closer (n + i) = (p.closer i).map (n + ·)
  closer_lt : ∀ i c, p.closer i = some c → i < c ∧ c < p.size
  /-- A part in the middle starts behind a semicolon. -/
  before : 0 < n → s.isPunct (n - 1) ';'
  /-- A part in the middle ends in a semicolon. -/
  behind : n + p.size = s.size ∨ p.isPunct (p.size - 1) ';'

namespace PartOf

variable {p s : TokenStream} {n k i j m : Nat} {name : Text} {c : Char}

/-! ## Tests -/

section Tests

variable (h : PartOf p s n k) (hi : i < p.size)
include h hi

theorem isIdent_eq (name : Text) : s.isIdent (n + i) name = p.isIdent i name := by
  rw [TokenStream.isIdent, TokenStream.isIdent, h.token i hi, Option.any_map]
  rfl

theorem isPunct_eq (c : Char) : s.isPunct (n + i) c = p.isPunct i c := by
  rw [TokenStream.isPunct, TokenStream.isPunct, h.token i hi, Option.any_map]
  rfl

theorem isSeparator_eq : s.isSeparator (n + i) = p.isSeparator i := by
  rw [TokenStream.isSeparator, TokenStream.isSeparator, h.token i hi, Option.any_map]
  rfl

theorem isWord_eq : s.isWord (n + i) = p.isWord i := by
  rw [TokenStream.isWord, TokenStream.isWord, h.token i hi, Option.any_map]
  rfl

theorem kind_eq : (s.token? (n + i)).map Token.kind = (p.token? i).map Token.kind := by
  rw [h.token i hi, Option.map_map]
  rfl

theorem text_eq : s.text (n + i) = p.text i := by
  rw [TokenStream.text, TokenStream.text, h.token i hi]
  cases p.token? i <;> rfl

theorem offset_eq : s.offset (n + i) = k + p.offset i := by
  obtain ⟨t, ht⟩ : ∃ t, p.token? i = some t := ⟨_, Array.getElem?_eq_getElem hi⟩
  rw [TokenStream.offset, TokenStream.offset, h.token i hi, ht]
  rfl

theorem endsHead_eq : DeclHead.endsHead s (n + i) = DeclHead.endsHead p i := by
  simp only [DeclHead.endsHead, h.isPunct_eq hi]

end Tests

theorem lt_size (h : PartOf p s n k) (hi : i < p.size) : n + i < s.size := by
  have := h.le
  omega

/-- No identifier stands right before the part. -/
theorem isIdent_before (h : PartOf p s n k) (hn : 0 < n) (name : Text) :
    s.isIdent (n - 1) name = false := by
  by_contra hne
  have hword := TokenStream.isPunct_of_isIdent (c := ';') (by simpa using hne)
  rw [h.before hn] at hword
  simp at hword

/-- Behind an identifier of the part stands what stands there in the part. -/
theorem isIdent_succ_eq (h : PartOf p s n k) (hi : p.isIdent i name) (name' : Text) :
    s.isIdent (n + i + 1) name' = p.isIdent (i + 1) name' := by
  have hlt := TokenStream.lt_size_of_isIdent hi
  rcases Nat.lt_or_ge (i + 1) p.size with hsucc | hge
  · exact h.isIdent_eq hsucc name'
  obtain rfl : i = p.size - 1 := by omega
  have hbehind : n + p.size = s.size := by
    rcases h.behind with hend | hsemi
    · exact hend
    · have := TokenStream.isPunct_of_isIdent (c := ';') hi
      rw [hsemi] at this
      simp at this
  have hout : ∀ {t : TokenStream} {l : Nat}, t.size ≤ l → t.isIdent l name' = false := by
    intro t l hl
    refine Bool.eq_false_iff.2 fun hident => ?_
    have := TokenStream.lt_size_of_isIdent hident
    omega
  rw [hout (by omega), hout (by omega)]

/-! ## Searches within the part -/

theorem indices_eq (h : PartOf p s n k) (hj : j ≤ p.size) :
    s.indices (n + i) (n + j) = (p.indices i j).map (n + ·) := by
  have hle := h.le
  rw [TokenStream.indices, TokenStream.indices, Nat.min_eq_left (by omega), Nat.min_eq_left hj,
    Nat.add_sub_add_left, List.map_add_range']

/-- A search among the tokens of the part finds in the stream what it finds in the part. -/
theorem find?_eq (h : PartOf p s n k) {q q' : Nat → Bool}
    (hq : ∀ l, l < p.size → q (n + l) = q' l) (hj : j ≤ p.size) :
    (s.indices (n + i) (n + j)).find? q = ((p.indices i j).find? q').map (n + ·) := by
  rw [h.indices_eq hj, List.find?_map]
  congr 1
  exact List.find?_congr fun l hl => hq l (TokenStream.mem_indices.1 hl).2.2

theorem findIdent_eq (h : PartOf p s n k) (hj : j ≤ p.size) (name : Text) :
    s.findIdent (n + i) (n + j) name = (p.findIdent i j name).map (n + ·) :=
  h.find?_eq (fun _ hl => h.isIdent_eq hl name) hj

theorem findPunct_eq (h : PartOf p s n k) (hj : j ≤ p.size) (c : Char) :
    s.findPunct (n + i) (n + j) c = (p.findPunct i j c).map (n + ·) :=
  h.find?_eq (fun _ hl => h.isPunct_eq hl c) hj

/-- A search that finds something in the part finds it in the longer stream. -/
theorem find?_size_of_some (h : PartOf p s n k) {q q' : Nat → Bool}
    (hq : ∀ l, l < p.size → q (n + l) = q' l) (hfind : (p.indices i p.size).find? q' = some j) :
    (s.indices (n + i) s.size).find? q = some (n + j) := by
  obtain ⟨⟨hij, hj, -⟩, hqj, hall⟩ := TokenStream.find?_indices.1 hfind
  have hle := h.le
  refine TokenStream.find?_indices.2 ⟨by omega, by rwa [hq j hj], fun m hm hmj => ?_⟩
  obtain ⟨d, rfl⟩ := Nat.exists_eq_add_of_le (show n ≤ m by omega)
  rw [hq d (by omega)]
  exact hall d (by omega) (by omega)

end PartOf

/-! ## Streams put together -/

namespace TokenStream

open NormalForm (spaceIf)

variable {source source' o y : Text} {p q : TokenStream} {f g : Bool} {i j k : Nat}

/-- The tokens of `p` and those of `q`, with `k` bytes before the text of `q`. -/
def join (p q : TokenStream) (source : Text) (k : Nat) : TokenStream where
  source := source
  tokens := p.tokens ++ q.tokens.map (Token.shift k)
  bracePairs := p.bracePairs ++ q.bracePairs.map fun r => (p.size + r.1, p.size + r.2)

@[simp] theorem size_join : (join p q source k).size = p.size + q.size := by
  simp [size, join]

theorem token?_join_left (hi : i < p.size) : (join p q source k).token? i = p.token? i :=
  Array.getElem?_append_left hi

theorem token?_join_right (i : Nat) :
    (join p q source k).token? (p.size + i) = (q.token? i).map (Token.shift k) := by
  rw [token?, join, Array.getElem?_append_right (by simp [size])]
  simp [token?, size]

theorem closer_join_left (hi : i < p.size) : (join p q source k).closer i = p.closer i := by
  have hnone : (q.bracePairs.map fun r => (p.size + r.1, p.size + r.2)).find? (·.1 == i) = none := by
    rw [List.find?_eq_none]
    intro r hr
    obtain ⟨r', -, rfl⟩ := List.mem_map.1 hr
    simp only [beq_iff_eq]
    omega
  rw [closer, join, List.find?_append, hnone, Option.or_none]
  rfl

/-- Behind the first stream the braces are paired as they are in the second one. -/
theorem closer_join_right (hp : tokenize source' = .ok p) (i : Nat) :
    (join p q source k).closer (p.size + i) = (q.closer i).map (p.size + ·) := by
  have hnone : p.bracePairs.find? (·.1 == p.size + i) = none := by
    rw [List.find?_eq_none]
    intro r hr
    have := lt_size_of_isPunct ((pairsFrom_of_tokenize hp).opening r hr)
    simp only [beq_iff_eq]
    omega
  have hfirst : ((fun r : Nat × Nat => r.1 == p.size + i) ∘
      fun r : Nat × Nat => (p.size + r.1, p.size + r.2)) = fun r => r.1 == i := by
    funext r
    simp
  rw [closer, join, List.find?_append, hnone, Option.none_or, List.find?_map, hfirst,
    Option.map_map, closer, Option.map_map]
  rfl

theorem size_of_tokenize (h : tokenize source = .ok p) : p.size = (Token.scan source).length := by
  obtain ⟨pairs, -, rfl⟩ := tokenize_eq_ok.1 h
  simp [size]

/-- A brace is closed behind where it opens, and by a token of the stream. -/
theorem closer_lt {c : Nat} (hp : tokenize source = .ok p) (hc : p.closer i = some c) :
    i < c ∧ c < p.size := by
  obtain ⟨-, hclose, hlt⟩ := closer_spec hp hc
  exact ⟨hlt, lt_size_of_isPunct hclose⟩

/-- A text whose tokens are those of two texts, one after the other, has the joined stream. -/
theorem tokenize_join (hp : tokenize source' = .ok p) (hq : tokenize y = .ok q)
    (hscan : Token.scan source = Token.scan source' ++ (Token.scan y).map (Token.shift k)) :
    tokenize source = .ok (join p q source k) := by
  obtain ⟨pairs, hpairs, rfl⟩ := tokenize_eq_ok.1 hp
  obtain ⟨pairs', hpairs', rfl⟩ := tokenize_eq_ok.1 hq
  have hlater := pairBracesFrom_shift hpairs' (Token.scan source').length k
  rw [Nat.add_zero, List.map_nil] at hlater
  refine tokenize_eq_ok.2 ⟨pairs ++ pairs'.map fun r =>
    ((Token.scan source').length + r.1, (Token.scan source').length + r.2), ?_, ?_⟩
  · rw [hscan, pairBraces, pairBracesFrom_append hpairs, Nat.zero_add, hlater]
    rfl
  · rw [join, hscan]
    simp [size]

/-! ## The parts of a text -/

/-- The tokens of a text that ends in a semicolon, but for a space, stand before those of what
follows it. -/
theorem scan_append
    (hlast : ((Token.scan (o ++ spaceIf f)).getLast?).map Token.kind = some (.punct ';')) (x : Text) :
    Token.scan (o ++ x) = Token.scan (o ++ spaceIf f) ++ Token.scanFrom o.size x := by
  have hblank : ∀ c ∈ spaceIf f, Text.isBlank c := by
    intro c hc
    rw [NormalForm.eq_space_of_mem_spaceIf hc]
    decide
  have hkind : ∀ t, (Token.scanFrom 0 (o ++ spaceIf f)).getLast? = some t →
      t.kind = .punct ';' := by
    intro t ht
    rw [Token.scan, ht] at hlast
    simpa using hlast
  rw [Token.scan, Token.scan, Token.scanFrom_append_of_semicolon hblank hkind, Nat.zero_add]

/-- What is scanned last is the last token of the stream. -/
theorem isPunct_last (hp : tokenize source = .ok p)
    (hlast : ((Token.scan source).getLast?).map Token.kind = some (.punct ';')) :
    p.isPunct (p.size - 1) ';' := by
  obtain ⟨t, ht, hkind⟩ := Option.map_eq_some_iff.1 hlast
  refine isPunct_iff.2 ⟨t, ?_, hkind⟩
  rw [token?_of_tokenize hp, size_of_tokenize hp, ← List.getLast?_eq_getElem?, ht]

/-- What stands between two tokens of such a text does not depend on what follows it. -/
theorem slice_append_of_token (hp : tokenize (o ++ spaceIf f) = .ok p)
    (hlast : ((Token.scan (o ++ spaceIf f)).getLast?).map Token.kind = some (.punct ';'))
    (hi : i < p.size) (hj : j < p.size) (x : Text) :
    Text.slice (p.offset i) (p.offset j) (o ++ x) = Text.slice (p.offset i) (p.offset j) o := by
  -- Both tokens are tokens of the text without the space at its end.
  have hmem : ∀ {l : Nat} {t : Token}, p.token? l = some t → t ∈ Token.scanFrom 0 o := by
    intro l t ht
    have hscan := scan_append hlast []
    rw [List.append_nil, Token.scanFrom_of_forall_blank (s := []) (by simp), List.append_nil] at hscan
    rw [token?_of_tokenize hp, ← hscan] at ht
    exact List.mem_of_getElem? ht
  obtain ⟨t, ht⟩ : ∃ t, p.token? i = some t := ⟨_, Array.getElem?_eq_getElem hi⟩
  obtain ⟨u, hu⟩ : ∃ u, p.token? j = some u := ⟨_, Array.getElem?_eq_getElem hj⟩
  obtain ⟨a, r', ho, hstart⟩ := Token.exists_append_of_mem_scanFrom (hmem ht)
  generalize t.lexeme ++ r' = r at ho
  have hwithin := Token.within_of_mem_scanFrom (hmem hu)
  have hle : u.start ≤ Text.size (a ++ r) := by
    have := hwithin.start_lt
    have := hwithin.stop_le
    rw [← ho]
    omega
  rw [offset_of_token? ht, offset_of_token? hu, hstart, Nat.zero_add, ho,
    Text.slice_append_left hle]

/-- The first of two texts is the first part of both. -/
theorem partOf_left (hp : tokenize (o ++ spaceIf f) = .ok p)
    (hlast : ((Token.scan (o ++ spaceIf f)).getLast?).map Token.kind = some (.punct ';')) (x : Text) :
    PartOf p (join p q (o ++ x) k) 0 0 where
  le := by simp
  token i hi := by
    rw [Nat.zero_add, token?_join_left hi]
    cases p.token? i with
    | none => rfl
    | some t => simp [Token.shift]
  text i j hij hj := by
    have hi := Nat.lt_of_le_of_lt hij hj
    have hoffset : ∀ l, l < p.size → (join p q (o ++ x) k).offset l = p.offset l := by
      intro l hl
      rw [offset, offset, token?_join_left hl]
      simp [token?, Array.getElem?_eq_getElem hl]
    rw [Nat.zero_add, Nat.zero_add, textBetween, textBetween, hoffset i hi, hoffset j hj,
      source_of_tokenize hp, slice_append_of_token hp hlast hi hj]
    exact slice_append_of_token hp hlast hi hj x
  closer i hi := by
    rw [Nat.zero_add, closer_join_left hi]
    cases p.closer i with
    | none => rfl
    | some c => simp
  closer_lt i c hc := closer_lt hp hc
  before h := absurd h (Nat.lt_irrefl 0)
  behind := Or.inr (isPunct_last hp hlast)

/-- The second of two texts is the last part of both. -/
theorem partOf_right (hp : tokenize source' = .ok p) (hq : tokenize y = .ok q)
    (hlast : p.isPunct (p.size - 1) ';') (u : Text) :
    PartOf q (join p q (u ++ y) u.size) p.size u.size where
  le := by simp
  token i _ := token?_join_right i
  text i j hij hj := by
    have hoffset : ∀ l, l < q.size →
        (join p q (u ++ y) u.size).offset (p.size + l) = u.size + q.offset l := by
      intro l hl
      rw [offset, offset, token?_join_right]
      simp [token?, Array.getElem?_eq_getElem hl]
    rw [textBetween, textBetween, hoffset i (Nat.lt_of_le_of_lt hij hj), hoffset j hj,
      source_of_tokenize hq]
    exact Text.slice_append_right u y _ _
  closer i _ := closer_join_right hp i
  closer_lt i c hc := closer_lt hq hc
  before _ := by
    have hlt := lt_size_of_isPunct hlast
    rwa [isPunct, token?_join_left hlt]
  behind := Or.inl size_join.symm

/-- Two texts, the first of which ends in a semicolon, are the parts of both with a space or nothing
between them. -/
theorem exists_parts (hp : tokenize (o ++ spaceIf f) = .ok p) (hq : tokenize y = .ok q)
    (hlast : ((Token.scan (o ++ spaceIf f)).getLast?).map Token.kind = some (.punct ';'))
    (g : Bool) :
    ∃ s, tokenize (o ++ (spaceIf g ++ y)) = .ok s ∧ s.size = p.size + q.size ∧ PartOf p s 0 0 ∧
      PartOf q s p.size (o ++ spaceIf g).size := by
  have hgap : ∀ c ∈ spaceIf g, c ∈ [' '] := fun c hc => by
    simpa using NormalForm.eq_space_of_mem_spaceIf hc
  have hscan : Token.scan (o ++ (spaceIf g ++ y)) = Token.scan (o ++ spaceIf f) ++
      (Token.scan y).map (Token.shift (o ++ spaceIf g).size) := by
    have hmove := Token.scanFrom_add (o ++ spaceIf g).size 0 y
    rw [scan_append hlast, Token.scanFrom_gap hgap, ← Text.size_append]
    exact congrArg (_ ++ ·) hmove
  have hleft := partOf_left (q := q) (k := (o ++ spaceIf g).size) hp hlast (spaceIf g ++ y)
  have hright := partOf_right hp hq (isPunct_last hp hlast) (o ++ spaceIf g)
  rw [List.append_assoc] at hright
  exact ⟨_, tokenize_join hp hq hscan, size_join, hleft, hright⟩

end TokenStream

end HeaderReflection
