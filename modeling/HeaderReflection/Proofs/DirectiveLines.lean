/-
  HeaderReflection.Proofs.DirectiveLines

  Which lines the blanking of directives blanks, said without the flag that
  goes from line to line, and what becomes of the bytes of a text. A blanked
  text has its lines where the text has them.
-/
import HeaderReflection.NormalForm.Directives
import HeaderReflection.Proofs.Directives
import HeaderReflection.Proofs.TextBytes
import Mathlib.Data.List.Induction
import Mathlib.Data.List.TakeWhile

namespace HeaderReflection

variable {c : Char} {b : UInt8} {i n : Nat} {k next : Bool} {p s line text : Text}
  {ls : List Text}

/-! ## Lines -/

/-- Lines of a text, each but the last with the line feed that ends it and with no other. -/
inductive Text.AreLines : List Text → Prop
  | nil : AreLines []
  | last {p : Text} (hp : p ≠ []) (hfeed : '\n' ∉ p) : AreLines [p]
  | cons {p : Text} {ls : List Text} (hfeed : '\n' ∉ p) (h : AreLines ls) :
      AreLines ((p ++ ['\n']) :: ls)

namespace Text

theorem areLines_lines (s : Text) : AreLines s.lines := by
  -- By induction on what is left behind the first line feed.
  induction hn : s.length using Nat.strongRecOn generalizing s with
  | ind n ih =>
      subst hn
      rcases not_mem_or_exists_newline s with hs | ⟨p, t, rfl, hp⟩
      · by_cases hnil : s = []
        · subst hnil
          exact .nil
        · rw [lines_of_not_mem hs hnil]
          exact .last hnil hs
      · rw [lines_append_newline hp]
        apply AreLines.cons hp
        apply ih t.length _ t rfl
        simp only [List.length_append, List.length_cons]
        omega

/-- Lines that are put together are found again. -/
theorem AreLines.lines_flatten (h : AreLines ls) : lines ls.flatten = ls := by
  induction h with
  | nil => rfl
  | last hp hfeed => simpa using lines_of_not_mem hfeed hp
  | cons hfeed _ ih =>
      rw [List.flatten_cons, List.append_assoc, List.singleton_append,
        lines_append_newline hfeed, ih]

/-! ## Bytes -/

/-- Only the line feed itself has the byte of one. -/
theorem ne_feed_of_mem_utf8EncodeChar (hc : c ≠ '\n') (h : b ∈ String.utf8EncodeChar c) :
    b ≠ 10 := by
  have hval : c.val.toNat ≠ 10 := fun hval => hc (Char.ext (UInt32.toNat_inj.1 hval))
  -- The bytes of a longer form are at least 128.
  have hbyte (m : Nat) (hm : m % 256 ≠ 10) : UInt8.ofNat m ≠ 10 := by
    intro h
    apply hm
    simpa using congrArg UInt8.toNat h
  rw [String.utf8EncodeChar.eq_1] at h
  split_ifs at h <;> simp only [List.mem_cons, List.not_mem_nil, or_false] at h
  · subst h
    exact hbyte _ (by omega)
  · rcases h with rfl | rfl <;> exact hbyte _ (by omega)
  · rcases h with rfl | rfl | rfl <;> exact hbyte _ (by omega)
  · rcases h with rfl | rfl | rfl | rfl <;> exact hbyte _ (by omega)

end Text

namespace NormalForm

/-! ## Covered lines -/

/-- The first character of the line after spaces and tabs is a number sign. -/
def IsSharp (line : Text) : Prop :=
  ∃ blanks rest, line = blanks ++ '#' :: rest ∧ ∀ c ∈ blanks, c = ' ' ∨ c = '\t'

/-- The last character of the line, but for its line ends, is a backslash. -/
def EndsOpen (line : Text) : Prop :=
  ∃ front ends, line = front ++ '\\' :: ends ∧ ∀ c ∈ ends, c = '\r' ∨ c = '\n'

/-- A line at or before the given one starts a directive, and every line from that one up to the one
before the given one ends in a backslash. -/
def IsCovered (ls : List Text) (i : Nat) : Prop :=
  ∃ j ≤ i, (∃ line ∈ ls[j]?, IsSharp line) ∧ ∀ m, j ≤ m → m < i → ∃ line ∈ ls[m]?, EndsOpen line

/-- The given line is covered, or the flag `k` covers the first line and with it the given one. -/
def CoveredFrom (k : Bool) (ls : List Text) (i : Nat) : Prop :=
  ∃ j ≤ i, (j = 0 ∧ k ∨ ∃ line ∈ ls[j]?, IsSharp line) ∧
    ∀ m, j ≤ m → m < i → ∃ line ∈ ls[m]?, EndsOpen line

theorem coveredFrom_false : CoveredFrom false ls i ↔ IsCovered ls i := by
  simp [CoveredFrom, IsCovered]

/-- The first line has only itself and the flag to be covered by. -/
theorem coveredFrom_zero : CoveredFrom k (line :: ls) 0 ↔ k ∨ IsSharp line := by
  simp [CoveredFrom]

/-- What covers the first line covers the others as far as it runs on. -/
theorem coveredFrom_succ (hnext : next ↔ (k ∨ IsSharp line) ∧ EndsOpen line) :
    CoveredFrom k (line :: ls) (i + 1) ↔ CoveredFrom next ls i := by
  constructor
  · rintro ⟨j, hj, hstart, hopen⟩
    have hopen' : ∀ m, j ≤ m + 1 → m < i → ∃ l ∈ ls[m]?, EndsOpen l := by
      intro m hjm hm
      simpa using hopen (m + 1) hjm (by omega)
    cases j with
    | zero =>
      -- What starts at the first line goes on at the next one as the flag.
      have hfirst : k ∨ IsSharp line := by simpa using hstart
      have hends : EndsOpen line := by simpa using hopen 0 (Nat.le_refl 0) i.succ_pos
      exact ⟨0, Nat.zero_le i, .inl ⟨rfl, hnext.2 ⟨hfirst, hends⟩⟩, fun m _ => hopen' m (by omega)⟩
    | succ j =>
      exact ⟨j, by omega, .inr (by simpa using hstart), fun m hjm => hopen' m (by omega)⟩
  · rintro ⟨j, hj, hstart, hopen⟩
    rcases hstart with ⟨rfl, hk⟩ | hsharp
    · obtain ⟨hfirst, hends⟩ := hnext.1 hk
      refine ⟨0, Nat.zero_le _, by simpa using hfirst, fun m _ hm => ?_⟩
      cases m with
      | zero => simpa using hends
      | succ m => simpa using hopen m (Nat.zero_le m) (by omega)
    · refine ⟨j + 1, by omega, .inr (by simpa using hsharp), fun m hjm hm => ?_⟩
      obtain ⟨m, rfl⟩ : ∃ m', m = m' + 1 := ⟨m - 1, by omega⟩
      simpa using hopen m (by omega) (by omega)

/-! ## The flag -/

/-- What stands behind a character that is no line end does not matter for what stands before it. -/
theorem lineBody_append_cons (hfeed : c ≠ '\n') (hreturn : c ≠ '\r') (s t : Text) :
    lineBody (s ++ c :: t) = s ++ c :: lineBody t := by
  induction t using List.reverseRecOn with
  | nil => exact lineBody_concat hfeed hreturn
  | append_singleton t d ih =>
      by_cases hd : d = '\n' ∨ d = '\r'
      · have hdrop (u : Text) : lineBody (u ++ [d]) = lineBody u := by
          rcases hd with rfl | rfl <;> simp [lineBody]
        rw [← List.cons_append, ← List.append_assoc, hdrop, hdrop, ih]
      · rw [not_or] at hd
        rw [← List.cons_append, ← List.append_assoc, lineBody_concat hd.1 hd.2,
          lineBody_concat hd.1 hd.2]
        simp

/-- A line is its body and the line ends behind it. -/
theorem exists_lineBody (line : Text) :
    ∃ ends, line = lineBody line ++ ends ∧ ∀ c ∈ ends, c = '\r' ∨ c = '\n' := by
  refine ⟨(line.reverse.takeWhile fun c => c == '\n' || c == '\r').reverse, ?_, fun c hc => ?_⟩
  · rw [lineBody, ← List.reverse_append, List.takeWhile_append_dropWhile, List.reverse_reverse]
  · have := List.mem_takeWhile_imp (List.mem_reverse.1 hc)
    simpa [or_comm] using this

theorem startsDirective_lineBody_iff (line : Text) :
    startsDirective (lineBody line) ↔ IsSharp line := by
  constructor
  · intro h
    rw [startsDirective, beq_iff_eq, List.head?_eq_some_iff] at h
    obtain ⟨rest, hrest⟩ := h
    obtain ⟨ends, hends, -⟩ := exists_lineBody line
    refine ⟨(lineBody line).takeWhile fun c => c == ' ' || c == '\t', rest ++ ends, ?_,
      fun c hc => by simpa using List.mem_takeWhile_imp hc⟩
    rw [← List.cons_append, ← hrest, ← List.append_assoc, List.takeWhile_append_dropWhile]
    exact hends
  · rintro ⟨blanks, rest, rfl, hblanks⟩
    rw [lineBody_append_cons (by decide) (by decide), startsDirective,
      List.dropWhile_append_of_pos (by simpa using hblanks)]
    rfl

theorem runsOn_lineBody_iff (line : Text) : runsOn (lineBody line) ↔ EndsOpen line := by
  constructor
  · intro h
    rw [runsOn, beq_iff_eq, List.getLast?_eq_some_iff] at h
    obtain ⟨front, hfront⟩ := h
    obtain ⟨ends, hline, hends⟩ := exists_lineBody line
    refine ⟨front, ends, ?_, hends⟩
    rw [hline, hfront, List.append_assoc]
    rfl
  · rintro ⟨front, ends, rfl, hends⟩
    have hnil : lineBody ends = [] := by
      simp only [lineBody, List.reverse_eq_nil_iff, List.dropWhile_eq_nil_iff, List.mem_reverse]
      intro c hc
      simpa [or_comm] using hends c hc
    rw [lineBody_append_cons (by decide) (by decide), hnil, runsOn]
    simp

/-! ## All lines -/

/-- The blanking of a line keeps the byte of a line feed and makes a space of every other. -/
def blankByte (b : UInt8) : UInt8 :=
  if b = 10 then b else 32

theorem bytes_blankLine (line : Text) :
    (blankLine line).bytes = line.bytes.map blankByte := by
  induction line with
  | nil => rfl
  | cons c s ih =>
      rw [blankLine, List.flatMap_cons, ← blankLine, Text.bytes_append, ih, Text.bytes_cons,
        List.map_append]
      congr 1
      by_cases hc : c = '\n'
      · subst hc
        rfl
      · have hspaces (m : Nat) : Text.bytes (List.replicate m ' ') = List.replicate m 32 := by
          induction m with
          | zero => rfl
          | succ m ih => rw [List.replicate_succ, Text.bytes_cons, ih]; rfl
        have hall : ∀ b ∈ String.utf8EncodeChar c, blankByte b = 32 := fun b hb =>
          if_neg (Text.ne_feed_of_mem_utf8EncodeChar hc hb)
        rw [if_neg (by simpa using hc), hspaces, List.map_congr_left hall, List.map_const',
          String.length_utf8EncodeChar]

/-- A directive line is blanked, and the next one with it if it runs on. -/
theorem blankDirectiveLines_of_covered (h : k ∨ IsSharp line) :
    blankDirectiveLines k (line :: ls) =
      blankLine line :: blankDirectiveLines (runsOn (lineBody line)) ls := by
  rw [blankDirectiveLines, if_pos]
  rwa [Bool.or_eq_true, startsDirective_lineBody_iff]

/-- Any other line is kept, and the next one is asked for itself. -/
theorem blankDirectiveLines_of_not_covered (h : ¬ (k ∨ IsSharp line)) :
    blankDirectiveLines k (line :: ls) = line :: blankDirectiveLines false ls := by
  rw [blankDirectiveLines, if_neg]
  rwa [Bool.or_eq_true, startsDirective_lineBody_iff]

/-- A line is blanked if it is covered, and kept if it is not. -/
theorem getElem?_blankDirectiveLines (k : Bool) (h : ls[i]? = some line) :
    ∃ line', (blankDirectiveLines k ls)[i]? = some line' ∧
      (CoveredFrom k ls i → line' = blankLine line) ∧ (¬ CoveredFrom k ls i → line' = line) := by
  -- By induction on the lines. The flag behind the first one says whether it is covered and runs
  -- on, and with that flag the others are covered as before.
  induction ls generalizing k i with
  | nil => simp at h
  | cons first ls ih =>
      by_cases hfirst : k ∨ IsSharp first
      · rw [blankDirectiveLines_of_covered hfirst]
        cases i with
        | zero =>
            obtain rfl : first = line := by simpa using h
            exact ⟨_, rfl, fun _ => rfl, fun hnot => absurd (coveredFrom_zero.2 hfirst) hnot⟩
        | succ i =>
            have hnext : runsOn (lineBody first) ↔ (k ∨ IsSharp first) ∧ EndsOpen first := by
              rw [runsOn_lineBody_iff, and_iff_right hfirst]
            rw [coveredFrom_succ hnext]
            exact ih _ h
      · rw [blankDirectiveLines_of_not_covered hfirst]
        cases i with
        | zero =>
            obtain rfl : first = line := by simpa using h
            exact ⟨_, rfl, fun hcover => absurd (coveredFrom_zero.1 hcover) hfirst, fun _ => rfl⟩
        | succ i =>
            have hnext : false ↔ (k ∨ IsSharp first) ∧ EndsOpen first := by
              simp [hfirst]
            rw [coveredFrom_succ hnext]
            exact ih _ h

theorem length_blankDirectiveLines (k : Bool) (ls : List Text) :
    (blankDirectiveLines k ls).length = ls.length := by
  fun_induction blankDirectiveLines k ls <;> simp_all

/-- A blanked line has its line feeds where the line has them. -/
theorem feeds_blankLine (line : Text) :
    (blankLine line).bytes.map (· == 10) = line.bytes.map (· == 10) := by
  rw [bytes_blankLine, List.map_map]
  apply List.map_congr_left
  intro b _
  by_cases hb : b = 10 <;> simp [blankByte, hb]

theorem feeds_blankDirectiveLines (k : Bool) (ls : List Text) :
    (Text.bytes (blankDirectiveLines k ls).flatten).map (· == 10) =
      (Text.bytes ls.flatten).map (· == 10) := by
  fun_induction blankDirectiveLines k ls with
  | case1 => rfl
  | case2 k line rest h ih => simp [feeds_blankLine, ih]
  | case3 k line rest h ih => simp [ih]

/-- Blanking makes no line feed. -/
theorem newline_not_mem_blankLine (hp : '\n' ∉ p) : '\n' ∉ blankLine p := by
  rw [blankLine, List.mem_flatMap]
  rintro ⟨c, hc, hmem⟩
  have hne : c ≠ '\n' := fun h => hp (h ▸ hc)
  simp [hne] at hmem

/-- Lines stay lines. -/
theorem areLines_blankDirectiveLines (k : Bool) (h : Text.AreLines ls) :
    Text.AreLines (blankDirectiveLines k ls) := by
  induction h generalizing k with
  | nil => exact .nil
  | @last p hp hfeed =>
      by_cases hfirst : k ∨ IsSharp p
      · rw [blankDirectiveLines_of_covered hfirst]
        obtain ⟨c, r, rfl⟩ := List.exists_cons_of_ne_nil hp
        have hsize : (blankLine (c :: r)).size = c.utf8Size + Text.size r := size_blankLine (c :: r)
        apply Text.AreLines.last _ (newline_not_mem_blankLine hfeed)
        intro hnil
        rw [hnil, Text.size_nil] at hsize
        have := c.utf8Size_pos
        omega
      · rw [blankDirectiveLines_of_not_covered hfirst]
        exact .last hp hfeed
  | @cons p ls hfeed _ ih =>
      by_cases hfirst : k ∨ IsSharp (p ++ ['\n'])
      · have happend : blankLine (p ++ ['\n']) = blankLine p ++ ['\n'] := by
          simp [blankLine]
        rw [blankDirectiveLines_of_covered hfirst, happend]
        exact .cons (newline_not_mem_blankLine hfeed) (ih _)
      · rw [blankDirectiveLines_of_not_covered hfirst]
        exact .cons hfeed (ih _)

/-- The lines of the blanked text are the blanked lines of the text. -/
theorem lines_blankDirectives (text : Text) :
    (blankDirectives text).lines = blankDirectiveLines false text.lines :=
  (areLines_blankDirectiveLines false (Text.areLines_lines text)).lines_flatten

/-! ## The whole text -/

/-- What the blanking of directives does to a text, seen from its bytes and from its lines. -/
structure BlanksDirectives (text out : Text) : Prop where
  length : out.bytes.length = text.bytes.length
  /-- Every line feed stays at its byte. -/
  feeds (n : Nat) : out.bytes[n]? = some 10 ↔ text.bytes[n]? = some 10
  /-- The lines are what stands between the line feeds. -/
  areLines : Text.AreLines text.lines ∧ text.lines.flatten = text
  lines_length : out.lines.length = text.lines.length
  /-- A covered line has a space for every byte but its line feed. -/
  covered {i : Nat} {line : Text} (hcover : IsCovered text.lines i)
    (hline : text.lines[i]? = some line) :
    ∃ line', out.lines[i]? = some line' ∧ line'.bytes = line.bytes.map blankByte
  /-- Any other line is kept as it is. -/
  kept {i : Nat} (hcover : ¬ IsCovered text.lines i) : out.lines[i]? = text.lines[i]?

/-- Directives are blanked in place: exactly the lines that one covers become spaces, and no byte
goes to another place. -/
theorem blankDirectives_in_place (text : Text) :
    BlanksDirectives text (blankDirectives text) := by
  have hfeeds : (blankDirectives text).bytes.map (· == 10) = text.bytes.map (· == 10) := by
    have := feeds_blankDirectiveLines false text.lines
    rwa [Text.flatten_lines] at this
  have hiff (s : Text) (n : Nat) :
      s.bytes[n]? = some 10 ↔ (s.bytes.map (· == 10))[n]? = some true := by
    simp
  constructor
  case length => simpa using congrArg List.length hfeeds
  case feeds => intro n; rw [hiff, hiff, hfeeds]
  case areLines => exact ⟨Text.areLines_lines text, Text.flatten_lines text⟩
  case lines_length => rw [lines_blankDirectives, length_blankDirectiveLines]
  case covered =>
    intro i line hcover hline
    obtain ⟨line', hline', hblank, -⟩ := getElem?_blankDirectiveLines false hline
    rw [hblank (coveredFrom_false.2 hcover)] at hline'
    exact ⟨blankLine line, by rwa [lines_blankDirectives], bytes_blankLine line⟩
  case kept =>
    intro i hcover
    rw [lines_blankDirectives]
    cases hline : text.lines[i]? with
    | none =>
        rw [List.getElem?_eq_none_iff] at hline ⊢
        rwa [length_blankDirectiveLines]
    | some line =>
        obtain ⟨line', hline', -, hkept⟩ := getElem?_blankDirectiveLines false hline
        rw [hline', hkept (by rwa [coveredFrom_false])]

/-- The line behind a backslash is covered, and the one behind it is not. -/
example : blankDirectives " #é\\\r\nx\ny".toList = "      \n \ny".toList := rfl

end NormalForm

end HeaderReflection
