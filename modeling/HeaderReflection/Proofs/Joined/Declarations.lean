/-
  HeaderReflection.Proofs.Joined.Declarations

  What is read in a part of a token stream is read in the stream as well, with
  the same names, fields and cases.
-/
import HeaderReflection.Declaration.Head
import HeaderReflection.Proofs.Body
import HeaderReflection.Proofs.Head
import HeaderReflection.Proofs.Joined.Part
import HeaderReflection.Proofs.Steps

namespace HeaderReflection

namespace PartOf

variable {p s : TokenStream} {n k i j m : Nat} {kind : DeclKind} {marker start stop close : Nat}
variable {name : Text}

/-! ## Keywords -/

/-- A struct keyword in the part is one in the stream: what stands before the part is no identifier. -/
theorem isStructKeyword_eq (h : PartOf p s n k) (hi : i < p.size) :
    DeclHead.isStructKeyword s (n + i) = DeclHead.isStructKeyword p i := by
  have hfirst : (decide (0 < n + i) && s.isIdent (n + i - 1) "enum".toList) =
      (decide (0 < i) && p.isIdent (i - 1) "enum".toList) := by
    rcases Nat.eq_zero_or_pos i with rfl | hpos
    · rcases Nat.eq_zero_or_pos n with rfl | hn
      · rfl
      · simp [h.isIdent_before hn]
    · rw [Nat.add_sub_assoc hpos, h.isIdent_eq (by omega)]
      simp [hpos, Nat.add_pos_right n hpos]
  rw [DeclHead.isStructKeyword, DeclHead.isStructKeyword, h.isIdent_eq hi, h.isIdent_eq hi, hfirst]

theorem isEnumKeyword_eq (h : PartOf p s n k) (hi : i < p.size) :
    DeclHead.isEnumKeyword s (n + i) = DeclHead.isEnumKeyword p i := by
  rw [DeclHead.isEnumKeyword, DeclHead.isEnumKeyword, h.isIdent_eq hi]
  cases hword : p.isIdent i "enum".toList with
  | false => rfl
  | true => rw [h.isIdent_succ_eq hword, h.isIdent_succ_eq hword]

/-- The keyword that stands before a marker of the part. -/
theorem keyword_before_eq (h : PartOf p s n k) (hm : marker < p.size) :
    (decide (0 < n + marker) && DeclHead.isStructKeyword s (n + marker - 1)) =
      (decide (0 < marker) && DeclHead.isStructKeyword p (marker - 1)) ∧
    (decide (2 ≤ n + marker) && DeclHead.isEnumKeyword s (n + marker - 2)) =
      (decide (2 ≤ marker) && DeclHead.isEnumKeyword p (marker - 2)) := by
  constructor
  · rcases Nat.eq_zero_or_pos marker with rfl | hpos
    · rcases Nat.eq_zero_or_pos n with rfl | hn
      · rfl
      · simp [DeclHead.isStructKeyword, h.isIdent_before hn]
    · rw [Nat.add_sub_assoc hpos, h.isStructKeyword_eq (by omega)]
      simp [hpos, Nat.add_pos_right n hpos]
  · rcases Nat.lt_or_ge marker 2 with hlt | hge
    · -- The first token before the marker that is not in the part is no word.
      have hnone : (decide (2 ≤ n + marker) && DeclHead.isEnumKeyword s (n + marker - 2)) = false := by
        rw [Bool.and_eq_false_iff, decide_eq_false_iff_not]
        refine (Nat.lt_or_ge (n + marker) 2).imp (by omega) fun hge => ?_
        have hn : 0 < n := by omega
        rw [DeclHead.isEnumKeyword]
        rcases Nat.eq_zero_or_pos marker with rfl | hpos
        · rw [show n + 0 - 2 + 1 = n - 1 by omega, h.isIdent_before hn, h.isIdent_before hn]
          simp
        · rw [show n + marker - 2 = n - 1 by omega, h.isIdent_before hn]
          rfl
      rw [hnone]
      simp [Nat.not_le.2 hlt]
    · rw [Nat.add_sub_assoc hge, h.isEnumKeyword_eq (by omega)]
      simp [hge, Nat.le_add_left_of_le hge]

/-- What a search through a head finds in the part it finds in the stream. -/
theorem searchHead_of_some (h : PartOf p s n k) {test test' : Nat → Bool}
    (htest : ∀ l, l < p.size → test (n + l) = test' l)
    (hsearch : DeclHead.searchHead p marker test' = some j) :
    DeclHead.searchHead s (n + marker) test = some (n + j) := by
  obtain ⟨⟨hmj, hj⟩, hend, htestj, hall⟩ := DeclHead.searchHead_eq_some.1 hsearch
  have hle := h.le
  refine DeclHead.searchHead_eq_some.2 ⟨by omega, by rwa [h.endsHead_eq hj], by rwa [htest j hj],
    fun l hml hlj => ?_⟩
  obtain ⟨d, rfl⟩ := Nat.exists_eq_add_of_le (show n ≤ l by omega)
  rw [h.endsHead_eq (by omega), htest d (by omega)]
  exact hall d (by omega) (by omega)

/-- The keyword of a declaration that is found in the part is found in the stream. -/
theorem afterKeyword_of_ok (h : PartOf p s n k) (hm : marker < p.size)
    (hok : DeclHead.afterKeyword p kind marker = .ok start) :
    DeclHead.afterKeyword s kind (n + marker) = .ok (n + start) := by
  obtain ⟨hstruct, henum⟩ := h.keyword_before_eq hm
  cases kind with
  | struct =>
      simp only [DeclHead.afterKeyword, hstruct] at hok ⊢
      split at hok
      · next hbefore =>
          obtain rfl := Except.ok.inj hok
          rw [if_pos hbefore]
      · next hbefore =>
          split at hok
          · next j hsearch =>
              obtain rfl := Except.ok.inj hok
              rw [if_neg hbefore,
                h.searchHead_of_some (fun l hl => h.isStructKeyword_eq hl) hsearch]
              rfl
          · simp at hok
  | enum =>
      simp only [DeclHead.afterKeyword, henum] at hok ⊢
      split at hok
      · next hbefore =>
          obtain rfl := Except.ok.inj hok
          rw [if_pos hbefore]
          rfl
      · next hbefore =>
          split at hok
          · next j hsearch =>
              obtain rfl := Except.ok.inj hok
              rw [if_neg hbefore,
                h.searchHead_of_some (fun l hl => h.isEnumKeyword_eq hl) hsearch]
              rfl
          · simp at hok

/-! ## Names -/

theorem nameEnd_eq (h : PartOf p s n k) (hstop : stop ≤ p.size) :
    DeclHead.nameEnd s kind (n + start) (n + stop) = n + DeclHead.nameEnd p kind start stop := by
  induction stop with
  | zero =>
      cases n with
      | zero => rfl
      | succ n =>
          have hstay : DeclHead.nameEnd s kind (n + 1 + start) (n + 1) = n + 1 := by
            rw [DeclHead.nameEnd, if_neg]
            simp only [Bool.and_eq_true, decide_eq_true_eq]
            omega
          exact hstay
  | succ stop ih =>
      rw [← Nat.add_assoc, DeclHead.nameEnd, DeclHead.nameEnd, h.isIdent_eq hstop,
        h.isIdent_eq hstop, ih (by omega)]
      simp only [Nat.add_le_add_iff_left]
      split
      · rfl
      · exact Nat.add_assoc n stop 1

theorem nameStartFrom_eq (h : PartOf p s n k) (hi : i < p.size) :
    DeclHead.nameStartFrom s (n + start) (n + i) = n + DeclHead.nameStartFrom p start i := by
  induction i using Nat.strongRecOn with
  | ind i ih =>
      -- The first two tokens of the part have nothing before them in it to go back over.
      rcases Nat.lt_or_ge i 2 with hlt | hge
      · rw [DeclHead.nameStartFrom_eq (by omega), DeclHead.nameStartFrom_eq (by omega)]
      · obtain ⟨i, rfl⟩ := Nat.exists_eq_add_of_le' hge
        rw [← Nat.add_assoc, DeclHead.nameStartFrom, DeclHead.nameStartFrom, Nat.add_assoc n i 1,
          h.isSeparator_eq (by omega), h.isWord_eq (by omega), ih i (by omega) (by omega)]
        simp only [Nat.add_le_add_iff_left]
        split
        · rfl
        · exact Nat.add_assoc n i 2

/-! ## Heads -/

/-- A head that is read in the part is read in the stream with the same name, and its name and its body
start in the part. -/
theorem read_of_ok (h : PartOf p s n k) {head : DeclHead}
    (hok : DeclHead.read p kind marker start = .ok head) :
    DeclHead.read s kind (n + marker) (n + start) =
        .ok ⟨n + head.nameStart, head.name, n + head.body⟩ ∧
      head.nameStart < p.size ∧ head.body < p.size := by
  obtain ⟨stop, hfind, hbrace, hstop, hne, hword, hfirst, hname⟩ := DeclHead.read_eq_ok.1 hok
  obtain ⟨⟨hsb, -, hbp⟩, -, -⟩ := TokenStream.find?_indices.1 hfind
  -- The name ends before the colon or the body, and both are in the part.
  have hclause := p.getD_findPunct_bounds (c := ':') hsb
  have hcolon : (s.findPunct (n + start) (n + head.body) ':').getD (n + head.body) =
      n + (p.findPunct start head.body ':').getD head.body := by
    rw [h.findPunct_eq (Nat.le_of_lt hbp)]
    cases p.findPunct start head.body ':' <;> rfl
  have hbounds : start ≤ stop ∧ stop ≤ (p.findPunct start head.body ':').getD head.body :=
    hstop ▸ DeclHead.nameEnd_bounds hclause.1
  have hfirst_le : DeclHead.nameStartFrom p start (stop - 1) ≤ stop - 1 :=
    DeclHead.nameStartFrom_le
  have hlast : n + stop - 1 = n + (stop - 1) := Nat.add_sub_assoc (by omega) n
  refine ⟨DeclHead.read_eq_ok.2 ⟨n + stop, ?_, ?_, ?_, by omega, ?_, ?_, ?_⟩, by omega, hbp⟩
  · exact h.find?_size_of_some (fun l hl => h.endsHead_eq hl) hfind
  · rw [h.isPunct_eq hbp, hbrace]
  · rw [hcolon, h.nameEnd_eq (by omega), hstop]
  · rw [hlast, h.isWord_eq (by omega), hword]
  · rw [hlast, h.nameStartFrom_eq (by omega), hfirst]
  · rw [hname, Nat.add_sub_add_left, ← List.map_add_range', List.map_map]
    refine congrArg List.flatten (List.map_congr_left fun l hl => (h.text_eq ?_).symm)
    have := List.mem_range'_1.1 hl
    omega

/-! ## Bodies -/

/-- The fields that are collected in a body of the part are collected in the stream. -/
theorem collectFieldsFrom_of_ok (h : PartOf p s n k) (hclose : close < p.size) {fields : List Text}
    (hok : collectFieldsFrom p close i = .ok fields) :
    collectFieldsFrom s (n + close) (n + i) = .ok fields := by
  -- By induction on the tokens that are left; every search finds `n` tokens further on what it finds
  -- in the part.
  induction hd : close - i using Nat.strongRecOn generalizing i fields with
  | ind d ih =>
      subst hd
      have hfind := h.findIdent_eq (i := i) (Nat.le_of_lt hclose) fieldMarker
      cases hmarker : p.findIdent i close fieldMarker with
      | none =>
          rw [collectFieldsFrom_of_none hmarker] at hok
          rw [hmarker, Option.map_none] at hfind
          rw [collectFieldsFrom_of_none hfind, hok]
      | some m =>
          have hm := TokenStream.findIdent_bounds hmarker
          rw [collectFieldsFrom_of_some hmarker] at hok
          rw [hmarker, Option.map_some] at hfind
          rw [collectFieldsFrom_of_some hfind, Nat.add_assoc, Nat.add_assoc,
            h.isPunct_eq (by omega), h.findPunct_eq (Nat.le_of_lt hclose)]
          split at hok
          · next hopen =>
            rw [if_pos hopen]
            cases hparen : p.findPunct (m + 2) close ')' with
            | none => simp [hparen] at hok
            | some paren =>
                have hp := TokenStream.findPunct_bounds hparen
                simp only [hparen, bind_eq_ok] at hok
                obtain ⟨later, hlater, hok⟩ := hok
                obtain rfl := Except.ok.inj hok
                simp only [Option.map_some]
                rw [Nat.add_assoc, ih (close - (paren + 1)) (by omega) hlater rfl,
                  h.text _ _ hp.1 hp.2.2]
                rfl
          · next hopen =>
            rw [if_neg hopen]
            exact ih (close - (m + 1)) (by omega) hok rfl

end PartOf

namespace CaseProgress

variable {p s : TokenStream} {n k i : Nat} {c : CaseProgress}

/-- The case with `n` tokens more before it. -/
def shift (n : Nat) (c : CaseProgress) : CaseProgress :=
  ⟨c.depth, n + c.start, c.stop.map (n + ·)⟩

/-- The case starts at index `i` or before it, and its end, if it has been met, stands between. -/
structure UpTo (c : CaseProgress) (i : Nat) : Prop where
  start_le : c.start ≤ i
  stop : ∀ j, c.stop = some j → c.start ≤ j ∧ j ≤ i

theorem UpTo.fresh (i : Nat) : UpTo ⟨0, i, none⟩ i :=
  ⟨Nat.le_refl i, by simp⟩

theorem UpTo.succ (h : UpTo c i) : UpTo c (i + 1) :=
  ⟨Nat.le_succ_of_le h.start_le, fun j hj => ⟨(h.stop j hj).1, Nat.le_succ_of_le (h.stop j hj).2⟩⟩

theorem UpTo.getD (h : UpTo c i) : c.start ≤ c.stop.getD i ∧ c.stop.getD i ≤ i := by
  cases hstop : c.stop with
  | none => exact ⟨h.start_le, Nat.le_refl i⟩
  | some j => exact h.stop j hstop

theorem UpTo.step (h : UpTo c i) (p : TokenStream) : UpTo (c.step p i) i := by
  simp only [CaseProgress.step]
  split
  · split
    · exact ⟨h.start_le, h.stop⟩
    split
    · exact ⟨h.start_le, h.stop⟩
    split
    · refine ⟨h.start_le, fun j hj => ?_⟩
      obtain rfl := Option.some.inj hj
      exact ⟨h.start_le, Nat.le_refl i⟩
    · exact h
  · exact h

@[simp] theorem depth_shift (n : Nat) (c : CaseProgress) : (c.shift n).depth = c.depth := rfl

/-- A finished case has the same text in the stream. -/
theorem finish_shift (h : PartOf p s n k) (hc : UpTo c i) (hi : i < p.size) :
    (c.shift n).finish s (n + i) = c.finish p i := by
  have hstop : (c.stop.map (n + ·)).getD (n + i) = n + c.stop.getD i := by
    cases c.stop <;> rfl
  have hle := hc.getD
  simp only [finish, shift, hstop, h.text _ _ hle.1 (Nat.lt_of_le_of_lt hle.2 hi)]

/-- A token has the same effect on a case in the stream. -/
theorem step_shift (h : PartOf p s n k) (c : CaseProgress) (hi : i < p.size) :
    (c.shift n).step s (n + i) = (c.step p i).shift n := by
  simp only [step, h.kind_eq hi]
  split
  · simp only [shift, Option.isNone_map]
    split
    · rfl
    split
    · rfl
    split <;> rfl
  · rfl

end CaseProgress

namespace PartOf

variable {p s : TokenStream} {n k i marker : Nat} {scopes scopes' : ScopeTree}

theorem collectCasesFrom_eq (h : PartOf p s n k) {c : CaseProgress} {close len : Nat}
    (hc : c.UpTo i) (hlen : i + len = close) (hclose : close < p.size) :
    collectCasesFrom s (n + close) (c.shift n) (List.range' (n + i) len) =
      collectCasesFrom p close c (List.range' i len) := by
  induction len generalizing i c with
  | zero =>
      obtain rfl : i = close := by omega
      exact CaseProgress.finish_shift h hc hclose
  | succ len ih =>
      have hi : i < p.size := by omega
      have hstep := hc.step p
      rw [List.range'_succ, List.range'_succ, collectCasesFrom, collectCasesFrom,
        CaseProgress.step_shift h c hi, h.isPunct_eq hi, CaseProgress.depth_shift]
      split
      · rw [CaseProgress.finish_shift h hstep hi, ← ih (.fresh (i + 1)) (by omega)]
        rfl
      · exact ih hstep.succ (by omega)

/-- The cases of a body of the part are those that the stream has there. -/
theorem collectCases_eq (h : PartOf p s n k) {opening close : Nat} (hclose : close < p.size)
    (hlt : opening < close) :
    collectCases s (n + opening) (n + close) = collectCases p opening close := by
  have hlen : opening + 1 + (close - (opening + 1)) = close := by omega
  rw [collectCases, collectCases, Nat.add_assoc, Nat.add_sub_add_left]
  exact h.collectCasesFrom_eq (.fresh (opening + 1)) hlen hclose

/-! ## Declarations -/

/-- A body that closes in the part closes at the same token in the stream. -/
theorem bodyClose_of_ok (h : PartOf p s n k) {opening close : Nat} (ho : opening < p.size)
    (hok : bodyClose p opening = .ok close) :
    bodyClose s (n + opening) = .ok (n + close) ∧ opening < close ∧ close < p.size := by
  rw [bodyClose] at hok ⊢
  cases hcloser : p.closer opening with
  | none => simp [hcloser] at hok
  | some c =>
      obtain rfl : c = close := by simpa [hcloser] using hok
      rw [h.closer opening ho, hcloser]
      exact ⟨rfl, h.closer_lt opening c hcloser⟩

/-- The qualifiers of bytes of the part are those that they have in it. -/
def SameScopes (p s : TokenStream) (n : Nat) (scopes' scopes : ScopeTree) : Prop :=
  ∀ i, i < p.size → scopes.qualifierAt (s.offset (n + i)) = scopes'.qualifierAt (p.offset i)

/-- A struct that is read in the part is read in the stream with the same name, qualifier and fields. -/
theorem readStruct_of_ok (h : PartOf p s n k) (hscopes : SameScopes p s n scopes' scopes)
    (hm : marker < p.size) {d : StructDecl} {body : Nat}
    (hok : readStruct p scopes' marker = .ok (d, body)) :
    readStruct s scopes (n + marker) = .ok (d, n + body) ∧ body < p.size := by
  simp only [readStruct, bind_eq_ok] at hok
  obtain ⟨start, hstart, head, hread, close, hclose, fields, hfields, hok⟩ := hok
  cases hok
  obtain ⟨hread', hname, hbody⟩ := h.read_of_ok hread
  obtain ⟨hclose', -, hlt⟩ := h.bodyClose_of_ok hbody hclose
  have hfields' : collectFields s (n + head.body) (n + close) = .ok fields :=
    h.collectFieldsFrom_of_ok hlt hfields
  refine ⟨?_, hbody⟩
  simp only [readStruct, bind_eq_ok]
  refine ⟨_, h.afterKeyword_of_ok hm hstart, _, hread', _, hclose', _, hfields', ?_⟩
  rw [hscopes _ hname]
  rfl

/-- An enum that is read in the part is read in the stream with the same name, qualifier and cases. -/
theorem readEnum_of_ok (h : PartOf p s n k) (hscopes : SameScopes p s n scopes' scopes)
    (hm : marker < p.size) {d : EnumDecl} {body : Nat}
    (hok : readEnum p scopes' marker = .ok (d, body)) :
    readEnum s scopes (n + marker) = .ok (d, n + body) ∧ body < p.size := by
  simp only [readEnum, bind_eq_ok] at hok
  obtain ⟨start, hstart, head, hread, close, hclose, hok⟩ := hok
  cases hok
  obtain ⟨hread', -, hbody⟩ := h.read_of_ok hread
  obtain ⟨hclose', hlt, hsize⟩ := h.bodyClose_of_ok hbody hclose
  refine ⟨?_, hbody⟩
  simp only [readEnum, bind_eq_ok]
  refine ⟨_, h.afterKeyword_of_ok hm hstart, _, hread', _, hclose', ?_⟩
  rw [hscopes _ hm, h.collectCases_eq hsize hlt]
  rfl

/-! ## All declarations -/

/-- A collection goes through the part as it does by itself. -/
theorem goes_collect_of_ok {α : Type} (h : PartOf p s n k) {pos : Nat} {name : Text}
    {read read' : Nat → Except ParseError (α × Nat)} {ds : List α}
    (hread : ∀ m d body, p.isIdent m name → read' m = .ok (d, body) →
      read (n + m) = .ok (d, n + body) ∧ m < body ∧ body < p.size)
    (hpos : pos ≤ p.size) (hok : Cursor.collect name (resumeInBody read') ⟨p, pos⟩ = .ok ds) :
    Goes (fun i => Cursor.collect name (resumeInBody read) ⟨s, i⟩) (n + pos) (n + p.size) ds := by
  have hskips := skips_collect s name (resumeInBody read)
  have hle := h.le
  -- Nothing is found before the first identifier of the part, nor behind the last one.
  have hskip : ∀ i j, i ≤ j → j ≤ p.size → (∀ l, i ≤ l → l < j → p.isIdent l name = false) →
      Cursor.collect name (resumeInBody read) ⟨s, n + i⟩ =
        Cursor.collect name (resumeInBody read) ⟨s, n + j⟩ := by
    intro i j hij hj hnone
    refine hskips.eq (by omega) (by omega) fun l hl hlj => ?_
    obtain ⟨d, rfl⟩ := Nat.exists_eq_add_of_le (show n ≤ l by omega)
    rw [h.isIdent_eq (by omega)]
    exact hnone d (by omega) (by omega)
  -- Every step takes the cursor forward, so the induction is on what is left of the part.
  induction hd : p.size - pos using Nat.strongRecOn generalizing pos ds with
  | ind d ih =>
      subst hd
      cases hfind : p.findIdent pos p.size name with
      | none =>
          rw [Cursor.collect_of_none hfind] at hok
          obtain rfl := Except.ok.inj hok
          have hnone := TokenStream.findIdent_size_eq_none.1 hfind
          exact goes_of_eq (hskip pos p.size hpos (Nat.le_refl _) fun l hl _ => hnone l hl)
      | some m =>
          obtain ⟨⟨hpm, hmp⟩, hm, hfirst⟩ := TokenStream.findIdent_eq_some.1 hfind
          rw [Cursor.collect_of_some hfind, bind_eq_ok] at hok
          obtain ⟨⟨d, resume⟩, hd, hok⟩ := hok
          obtain ⟨ds', hds', hok⟩ := bind_eq_ok.1 hok
          obtain rfl := Except.ok.inj hok
          obtain ⟨⟨d', body⟩, hbody, hres⟩ := bind_eq_ok.1 hd
          cases hres
          obtain ⟨hread', hmb, hsize⟩ := hread m d body hm hbody
          rw [show max (m + 1) (body + 1) = body + 1 by omega] at hds'
          have hstep : Goes (fun i => Cursor.collect name (resumeInBody read) ⟨s, i⟩) (n + m)
              (n + (body + 1)) [d] := by
            refine goes_collect (by rwa [h.isIdent_eq hmp]) ?_ (by omega)
            rw [resumeInBody, hread']
            rfl
          have hrest := ih (p.size - (body + 1)) (by omega) hsize hds' rfl
          exact (hstep.trans hrest).after (hskip pos m hpm (Nat.le_of_lt hmp) hfirst)

/-! ## Structs and enums -/

/-- Over the tokens of the part the structs are collected that are extracted from it alone. -/
theorem goes_structs (h : PartOf p s n k) (hscopes : SameScopes p s n scopes' scopes)
    {structs : List StructDecl} (hok : extractStructs p scopes' = .ok structs) :
    Goes (fun i => Cursor.collect DeclKind.struct.marker (resumeInBody (readStruct s scopes)) ⟨s, i⟩)
      n (n + p.size) structs := by
  refine h.goes_collect_of_ok (fun m d body hm hread => ?_) (Nat.zero_le _) hok
  have hlt := TokenStream.lt_size_of_isIdent hm
  obtain ⟨hread', hbody⟩ := h.readStruct_of_ok hscopes hlt hread
  exact ⟨hread', (opensBody_of_readStruct hm hread).lt, hbody⟩

/-- Over the tokens of the part the enums are collected that are extracted from it alone. -/
theorem goes_enums (h : PartOf p s n k) (hscopes : SameScopes p s n scopes' scopes)
    {enums : List EnumDecl} (hok : extractEnums p scopes' = .ok enums) :
    Goes (fun i => Cursor.collect DeclKind.enum.marker (resumeInBody (readEnum s scopes)) ⟨s, i⟩)
      n (n + p.size) enums := by
  refine h.goes_collect_of_ok (fun m d body hm hread => ?_) (Nat.zero_le _) hok
  have hlt := TokenStream.lt_size_of_isIdent hm
  obtain ⟨hread', hbody⟩ := h.readEnum_of_ok hscopes hlt hread
  exact ⟨hread', (opensBody_of_readEnum hm hread).lt, hbody⟩

end PartOf

end HeaderReflection
