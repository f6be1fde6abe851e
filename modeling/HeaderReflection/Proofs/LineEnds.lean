/-
  HeaderReflection.Proofs.LineEnds

  Line ends make no difference. If every line feed of a header has a carriage
  return in front of it, each pass finds what it looks for where it was found
  before, and the carriage returns end up beside line feeds, where a space more
  is none. Only byte offsets grow, by one for every line feed before them.
-/
import HeaderReflection.Proofs.Comments
import HeaderReflection.Proofs.Slices
import HeaderReflection.Proofs.SpacingPass
import Mathlib.Data.List.Induction

namespace HeaderReflection

/-! ## Carriage returns -/

namespace Text

variable {c : Char}

/-- The text with a carriage return in front of every line feed. -/
def crlf (s : Text) : Text :=
  s.flatMap fun c => if c == '\n' then ['\r', '\n'] else [c]

@[simp] theorem crlf_nil : crlf [] = [] := rfl

@[simp] theorem crlf_feed (s : Text) : crlf ('\n' :: s) = '\r' :: '\n' :: crlf s := rfl

theorem crlf_cons (hc : c ≠ '\n') (s : Text) : crlf (c :: s) = c :: crlf s := by
  simp [crlf, hc]

@[simp] theorem crlf_append (s t : Text) : crlf (s ++ t) = crlf s ++ crlf t :=
  List.flatMap_append

theorem count_uptoByte_append (a : Char) (n : Nat) (s t : Text) :
    (uptoByte n (s ++ t)).count a =
      (uptoByte n s).count a + (uptoByte (n - s.size) t).count a := by
  rw [uptoByte_append, List.count_append]

/-- Every line gets its own carriage return. -/
theorem lines_crlf (s : Text) : lines (crlf s) = (lines s).map crlf := by
  induction s with
  | nil => rfl
  | cons c s ih =>
      by_cases hc : c = '\n'
      · subst hc
        simp [lines, ih]
      · rw [crlf_cons hc, lines, lines, ih]
        cases lines s <;> simp [hc, crlf_cons]

end Text

namespace NormalForm

open Text

variable {all : Bool} {a b c : Char} {s s' t t' x y : Text} {n start start' : Nat}

/-! ## The body of a line -/

theorem lineBody_append_return (s : Text) : lineBody (s ++ ['\r']) = lineBody s := by
  simp [lineBody]

/-- What stands before the end of a line keeps its own line feeds, if it has any. -/
theorem lineBody_crlf (s : Text) : lineBody (crlf s) = crlf (lineBody s) := by
  -- By induction from the end, where line ends go until another character stands there.
  induction s using List.reverseRecOn with
  | nil => rfl
  | append_singleton s c ih =>
      by_cases hfeed : c = '\n'
      · subst hfeed
        have hends : crlf (s ++ ['\n']) = (crlf s ++ ['\r']) ++ ['\n'] := by simp
        rw [hends, lineBody_append_newline, lineBody_append_return, lineBody_append_newline, ih]
      by_cases hreturn : c = '\r'
      · subst hreturn
        have hends : crlf (s ++ ['\r']) = crlf s ++ ['\r'] := by simp [crlf_cons]
        rw [hends, lineBody_append_return, lineBody_append_return, ih]
      · have hends : crlf (s ++ [c]) = crlf s ++ [c] := by simp [crlf_cons hfeed]
        rw [hends, lineBody_concat hfeed hreturn, lineBody_concat hfeed hreturn, hends]

theorem blankLine_cons (hc : c ≠ '\n') (s : Text) :
    blankLine (c :: s) = List.replicate c.utf8Size ' ' ++ blankLine s := by
  simp [blankLine, hc]

theorem startsDirective_crlf (s : Text) : startsDirective (crlf s) = startsDirective s := by
  induction s with
  | nil => rfl
  | cons c s ih =>
      by_cases hc : c = '\n'
      · -- Neither line end is passed over at the start, and neither is a number sign.
        subst hc
        rfl
      · rw [startsDirective] at ih ⊢
        rw [crlf_cons hc, startsDirective, List.dropWhile_cons, List.dropWhile_cons]
        split
        · exact ih
        · rfl

theorem runsOn_crlf (s : Text) : runsOn (crlf s) = runsOn s := by
  rcases List.eq_nil_or_concat s with rfl | ⟨s, c, rfl⟩
  · rfl
  · by_cases hc : c = '\n'
    · subst hc
      simp [runsOn]
    · simp [runsOn, crlf_cons hc]

/-! ## Blanks in front of line feeds -/

/-- The second text has a space or a carriage return more in front of line feeds of the first one: in
front of each of them, if `all` says so. -/
inductive Widens (all : Bool) : Text → Text → Prop
  | nil : Widens all [] []
  | keep {c : Char} {s s' : Text} (hc : all → c ≠ '\n') (h : Widens all s s') :
      Widens all (c :: s) (c :: s')
  | feed {w : Char} {s s' : Text} (hw : w = ' ' ∨ w = '\r') (h : Widens all s s') :
      Widens all ('\n' :: s) (w :: '\n' :: s')

namespace Widens

theorem refl_of_not_mem (hs : '\n' ∉ s) : Widens all s s := by
  induction s with
  | nil => exact nil
  | cons c s ih =>
      rw [List.mem_cons, not_or] at hs
      exact keep (fun _ => Ne.symm hs.1) (ih hs.2)

theorem append (h : Widens all s s') (h' : Widens all t t') : Widens all (s ++ t) (s' ++ t') := by
  induction h with
  | nil => exact h'
  | keep hc _ ih => exact keep hc ih
  | feed hw _ ih => exact feed hw ih

theorem crlf (s : Text) : Widens true s (Text.crlf s) := by
  induction s with
  | nil => exact nil
  | cons c s ih =>
      by_cases hc : c = '\n'
      · subst hc
        exact feed (.inr rfl) ih
      · rw [crlf_cons hc]
        exact keep (fun _ => hc) ih

/-- The carriage return of a directive line is blanked with the line. -/
theorem blankLine (s : Text) :
    Widens true (NormalForm.blankLine s) (NormalForm.blankLine (Text.crlf s)) := by
  induction s with
  | nil => exact nil
  | cons c s ih =>
      by_cases hc : c = '\n'
      · subst hc
        exact feed (.inl rfl) ih
      · rw [crlf_cons hc, blankLine_cons hc, blankLine_cons hc]
        exact append (refl_of_not_mem (by simp)) ih

/-- A line is a directive or runs on whatever its end. -/
theorem blankDirectiveLines (k : Bool) (ls : List Text) :
    Widens true (NormalForm.blankDirectiveLines k ls).flatten
      (NormalForm.blankDirectiveLines k (ls.map Text.crlf)).flatten := by
  induction ls generalizing k with
  | nil => exact nil
  | cons line ls ih =>
      rw [List.map_cons, NormalForm.blankDirectiveLines, NormalForm.blankDirectiveLines,
        lineBody_crlf, startsDirective_crlf, runsOn_crlf]
      split
      · exact append (blankLine line) (ih _)
      · exact append (crlf line) (ih _)

theorem blankDirectives (s : Text) :
    Widens true (NormalForm.blankDirectives s) (NormalForm.blankDirectives (Text.crlf s)) := by
  rw [NormalForm.blankDirectives, NormalForm.blankDirectives, lines_crlf]
  exact blankDirectiveLines false s.lines

/-- Each line feed has one byte more in front of it. -/
theorem size_eq (h : Widens true s s') : s'.size = s.size + s.count '\n' := by
  have hfeed : ('\n' : Char).utf8Size = 1 := rfl
  induction h with
  | nil => rfl
  | @keep c s s' hc _ ih =>
      rw [Text.size_cons, Text.size_cons, ih, List.count_cons_of_ne (hc rfl)]
      omega
  | @feed w s s' hw _ ih =>
      have hsize : w.utf8Size = 1 := by rcases hw with rfl | rfl <;> rfl
      rw [Text.size_cons, Text.size_cons, Text.size_cons, ih, List.count_cons_self, hsize, hfeed]
      omega

/-! ## Searches -/

/-- What is no blank starts both texts or none. -/
theorem head?_eq_iff (h : Widens all s s') (hb : b ∉ [' ', '\r', '\n']) :
    s'.head? = some b ↔ s.head? = some b := by
  simp only [List.mem_cons, List.not_mem_nil, or_false, not_or] at hb
  cases h with
  | nil => rfl
  | keep => rfl
  | feed hw =>
      have hspace := Ne.symm hb.1
      have hreturn := Ne.symm hb.2.1
      have hfeed := Ne.symm hb.2.2
      rcases hw with rfl | rfl <;> simp [*]

theorem tail (h : Widens all s s') (hs : s.head? ≠ some '\n') : Widens all s.tail s'.tail := by
  cases h with
  | nil => exact nil
  | keep _ h => exact h
  | feed => simp at hs

/-- A pair is found in both texts or in none, and what stands before and after it is widened each by
itself. -/
theorem breakAt_cases (h : Widens all s s') (ha : a ∉ [' ', '\r', '\n'])
    (hb : b ∉ [' ', '\r', '\n']) :
    (Text.breakAt a b s = none ∧ Text.breakAt a b s' = none) ∨
      ∃ x x' y y', Text.breakAt a b s = some (x, y) ∧ Text.breakAt a b s' = some (x', y') ∧
        Widens all x x' ∧ Widens all y y' := by
  have hne : a ≠ ' ' ∧ a ≠ '\r' ∧ a ≠ '\n' := by simpa using ha
  -- By induction on the texts. A pair has no blank in it, so it stands in both where it begins.
  induction h with
  | nil => exact .inl ⟨rfl, rfl⟩
  | @keep c s s' hc h ih =>
      rw [breakAt_cons, breakAt_cons]
      by_cases hpair : c = a ∧ s.head? = some b
      · rw [if_pos hpair, if_pos ⟨hpair.1, (h.head?_eq_iff hb).2 hpair.2⟩]
        -- What follows is no line feed, so nothing is put in front of it.
        refine .inr ⟨_, _, _, _, rfl, rfl, nil, h.tail ?_⟩
        rw [hpair.2]
        rintro ⟨rfl⟩
        simp at hb
      · rw [if_neg hpair, if_neg fun h' => hpair ⟨h'.1, (h.head?_eq_iff hb).1 h'.2⟩]
        rcases ih with ⟨hs, hs'⟩ | ⟨x, x', y, y', hs, hs', hx, hy⟩
        · exact .inl ⟨by rw [hs]; rfl, by rw [hs']; rfl⟩
        · exact .inr ⟨_, _, y, y', by rw [hs]; rfl, by rw [hs']; rfl, keep hc hx, hy⟩
  | @feed w s s' hw h ih =>
      have hwa : w ≠ a := by
        rcases hw with rfl | rfl
        · exact hne.1.symm
        · exact hne.2.1.symm
      -- Neither the character that is put in nor the line feed begins a pair.
      have hfeed : ∀ r : Text, ¬ ('\n' = a ∧ r.head? = some b) := fun r h' => hne.2.2 h'.1.symm
      rw [breakAt_cons w, if_neg fun h' => hwa h'.1, breakAt_cons '\n' s, if_neg (hfeed s),
        breakAt_cons '\n' s', if_neg (hfeed s')]
      rcases ih with ⟨hs, hs'⟩ | ⟨x, x', y, y', hs, hs', hx, hy⟩
      · exact .inl ⟨by rw [hs]; rfl, by rw [hs']; rfl⟩
      · exact .inr ⟨_, _, y, y', by rw [hs]; rfl, by rw [hs']; rfl, feed hw hx, hy⟩

theorem breakAt_eq_none (h : Widens all s s') (ha : a ∉ [' ', '\r', '\n'])
    (hb : b ∉ [' ', '\r', '\n']) (hs : Text.breakAt a b s = none) : Text.breakAt a b s' = none := by
  rcases h.breakAt_cases ha hb with ⟨-, hs'⟩ | ⟨x, x', y, y', hsome, -⟩
  · exact hs'
  · simp [hs] at hsome

theorem exists_breakAt (h : Widens all s s') (ha : a ∉ [' ', '\r', '\n'])
    (hb : b ∉ [' ', '\r', '\n']) (hs : Text.breakAt a b s = some (x, y)) :
    ∃ x' y', Text.breakAt a b s' = some (x', y') ∧ Widens all x x' ∧ Widens all y y' := by
  rcases h.breakAt_cases ha hb with ⟨hnone, -⟩ | ⟨p, x', q, y', hsome, hs', hx, hy⟩
  · simp [hs] at hnone
  · obtain ⟨rfl, rfl⟩ : x = p ∧ y = q := by simpa [hs] using hsome
    exact ⟨x', y', hs', hx, hy⟩

/-! ## The passes behind the directives -/

/-- Block comments are dropped from both texts, or the same one is open in both. -/
theorem dropBlockCommentsFrom_cases (h : Widens true s s') (start start' : Nat) :
    (∃ r r', dropBlockCommentsFrom start s = .ok r ∧ dropBlockCommentsFrom start' s' = .ok r' ∧
      Widens true r r') ∨
    ∃ p q, s = p ++ q ∧
      dropBlockCommentsFrom start s = .error (.unterminatedComment (start + p.size)) ∧
      dropBlockCommentsFrom start' s' =
        .error (.unterminatedComment (start' + (p.size + p.count '\n'))) := by
  -- By induction on the comments of the first text. Each of them is found in the second one, and what
  -- is left behind it is widened as well.
  fun_induction dropBlockCommentsFrom start s generalizing start' s' with
  | case1 start s hopen =>
      have hopen' := h.breakAt_eq_none (by decide) (by decide) hopen
      exact .inl ⟨s, s', rfl, dropBlockCommentsFrom_of_none hopen', h⟩
  | case2 start s code r hopen hclose =>
      obtain ⟨code', r', hopen', hcode, hr⟩ := h.exists_breakAt (by decide) (by decide) hopen
      have hclose' := hr.breakAt_eq_none (by decide) (by decide) hclose
      refine .inr ⟨code, '/' :: '*' :: r, Text.eq_of_breakAt hopen, rfl, ?_⟩
      rw [dropBlockCommentsFrom_of_open hopen' hclose', hcode.size_eq]
  | case3 start s code r hopen inside after hclose ih =>
      obtain ⟨code', r', hopen', hcode, hr⟩ := h.exists_breakAt (by decide) (by decide) hopen
      obtain ⟨inside', after', hclose', hinside, hafter⟩ :=
        hr.exists_breakAt (by decide) (by decide) hclose
      rw [dropBlockCommentsFrom_of_closed hopen' hclose']
      rcases ih hafter _ with ⟨t, t', ht, ht', hrest⟩ | ⟨p, q, rfl, he, he'⟩
      · refine .inl ⟨code ++ t, code' ++ t', ?_, ?_, hcode.append hrest⟩
        · rw [ht]
          rfl
        · rw [ht']
          rfl
      · -- What stands before the open comment is the closed one, with what stands around it.
        have hsize : Text.size ['/', '*'] = 2 ∧ Text.size ['*', '/'] = 2 := ⟨rfl, rfl⟩
        have hcount : List.count '\n' ['/', '*'] = 0 ∧ List.count '\n' ['*', '/'] = 0 := ⟨rfl, rfl⟩
        refine .inr ⟨code ++ (['/', '*'] ++ (inside ++ (['*', '/'] ++ p))), q, ?_, ?_, ?_⟩
        · rw [Text.eq_of_breakAt hopen, Text.eq_of_breakAt hclose]
          simp
        · rw [he]
          show Except.error (ParseError.unterminatedComment _) = _
          congr 2
          simp only [Text.size_append]
          omega
        · rw [he', hcode.size_eq, hinside.size_eq]
          show Except.error (ParseError.unterminatedComment _) = _
          congr 2
          simp only [Text.size_append, List.count_append]
          omega

theorem mono (h : Widens all s s') : Widens false s s' := by
  induction h with
  | nil => exact nil
  | keep _ _ ih => exact keep (by simp) ih
  | feed hw _ ih => exact feed hw ih

/-- What is left from the end of a line on starts with its line feed. -/
theorem dropWhile (h : Widens false s s') :
    Widens false (s.dropWhile (· != '\n')) (s'.dropWhile (· != '\n')) := by
  induction h with
  | nil => exact nil
  | @keep c s s' hc h ih =>
      rw [List.dropWhile_cons, List.dropWhile_cons]
      split
      · exact ih
      · exact keep hc h
  | @feed w s s' hw h ih =>
      have hdrop : (w :: '\n' :: s').dropWhile (· != '\n') = '\n' :: s' := by
        rcases hw with rfl | rfl <;> rfl
      rw [hdrop, List.dropWhile_cons_of_neg (by simp)]
      exact keep (by simp) h

/-- A line comment takes the carriage return of its line with it. -/
theorem dropLineComments (h : Widens false s s') :
    Widens false (NormalForm.dropLineComments s) (NormalForm.dropLineComments s') := by
  -- By induction on the comments of the first text, as for block comments.
  fun_induction NormalForm.dropLineComments s generalizing s' with
  | case1 s hnone =>
      rw [dropLineComments_of_none (h.breakAt_eq_none (by decide) (by decide) hnone)]
      exact h
  | case2 s code r hsome ih =>
      obtain ⟨code', r', hsome', hcode, hr⟩ := h.exists_breakAt (by decide) (by decide) hsome
      rw [dropLineComments_of_some hsome']
      exact hcode.append (ih hr.dropWhile)

theorem spaceOut_eq (h : Widens all s s') (keep : Option Char → Option Char → Bool)
    (last : Option Char) (pending : Bool) :
    spaceOut keep last pending s' = spaceOut keep last pending s := by
  induction h generalizing last pending with
  | nil => rfl
  | keep _ _ ih => simp only [spaceOut, ih]
  | @feed w s s' hw _ ih =>
      -- Behind two layout characters the pass is where it is behind one.
      have hlayout : isLayout w := by rcases hw with rfl | rfl <;> rfl
      rw [spaceOut_of_layout hlayout, spaceOut_of_layout (by rfl), spaceOut_of_layout (by rfl), ih]

/-- A blank in front of a line feed is one of a run. -/
theorem respace_eq (h : Widens all s s') : respace s' = respace s := by
  rw [NormalForm.respace_eq, NormalForm.respace_eq, h.spaceOut_eq]

end Widens

/-! ## Line feeds before a byte -/

theorem count_blankLine (s : Text) (n : Nat) :
    ((blankLine s).uptoByte n).count '\n' = (s.uptoByte n).count '\n' := by
  induction s generalizing n with
  | nil => rfl
  | cons c s ih =>
      by_cases hc : c = '\n'
      · subst hc
        have hline : blankLine ('\n' :: s) = ['\n'] ++ blankLine s := rfl
        have hfeed : '\n' :: s = ['\n'] ++ s := rfl
        rw [hline, hfeed, count_uptoByte_append, count_uptoByte_append, ih]
      · have hspaces : '\n' ∉ uptoByte n (List.replicate c.utf8Size ' ') := by
          intro hmem
          have := List.eq_of_mem_replicate (uptoByte_subset n _ hmem)
          simp at this
        have hchar : '\n' ∉ uptoByte n [c] := by
          intro hmem
          exact hc (List.mem_singleton.1 (uptoByte_subset n _ hmem)).symm
        have hcons : c :: s = [c] ++ s := rfl
        rw [blankLine_cons hc, hcons, count_uptoByte_append, count_uptoByte_append,
          List.count_eq_zero.2 hspaces, List.count_eq_zero.2 hchar, size_spaces, ih]
        rfl

theorem count_blankDirectiveLines (k : Bool) (ls : List Text) (n : Nat) :
    (uptoByte n (blankDirectiveLines k ls).flatten).count '\n' = (uptoByte n ls.flatten).count '\n' := by
  induction ls generalizing k n with
  | nil => rfl
  | cons line ls ih =>
      rw [blankDirectiveLines]
      split
      · rw [List.flatten_cons, List.flatten_cons, count_uptoByte_append, count_uptoByte_append,
          size_blankLine, count_blankLine, ih]
      · rw [List.flatten_cons, List.flatten_cons, count_uptoByte_append, count_uptoByte_append, ih]

/-- A blanked text has its line feeds where they were. -/
theorem count_blankDirectives (s : Text) (n : Nat) :
    ((blankDirectives s).uptoByte n).count '\n' = (s.uptoByte n).count '\n' := by
  rw [blankDirectives, count_blankDirectiveLines, flatten_lines]

end NormalForm

open NormalForm

/-- With carriage returns in front of its line feeds a text has the same normal form, and the same
open comment, which stands as many bytes later as line feeds stand before it. -/
theorem normalize_crlf (raw : Text) :
    (∀ t, normalize raw = .ok t ↔ normalize raw.crlf = .ok t) ∧
    (∀ t, normalize raw = .ok t → extractSource raw.crlf = extractSource raw) ∧
    ∀ e, normalize raw = .error e → ∃ n, e = .unterminatedComment n ∧
      normalize raw.crlf = .error (.unterminatedComment (n + (raw.uptoByte n).count '\n')) := by
  rcases (Widens.blankDirectives raw).dropBlockCommentsFrom_cases 0 0 with
    ⟨code, code', hcode, hcode', hwidens⟩ | ⟨p, q, hsplit, he, he'⟩
  · have hraw := normalize_eq_ok.2 ⟨code, hcode, rfl⟩
    have hcrlf := normalize_eq_ok.2 ⟨code', hcode', rfl⟩
    rw [hwidens.mono.dropLineComments.respace_eq] at hcrlf
    refine ⟨fun t => by rw [hraw, hcrlf], fun t _ => ?_, fun e he => ?_⟩
    · rw [extractSource, extractSource, hraw, hcrlf]
    · simp [hraw] at he
  · have hraw : normalize raw = .error (.unterminatedComment (0 + p.size)) :=
      bind_pure_eq_error.2 he
    have hcrlf : normalize raw.crlf = .error (.unterminatedComment (0 + (p.size + p.count '\n'))) :=
      bind_pure_eq_error.2 he'
    -- Blanking moves no line feed, so those before the comment can be counted in the raw text.
    have hcount : (raw.uptoByte p.size).count '\n' = p.count '\n' := by
      rw [← count_blankDirectives, hsplit, Text.uptoByte_size_append]
    refine ⟨fun t => ?_, fun t ht => ?_, fun e he => ⟨p.size, ?_, ?_⟩⟩
    · simp [hraw, hcrlf]
    · simp [hraw] at ht
    · simpa [hraw] using he.symm
    · rw [hcrlf, hcount, Nat.zero_add]

/-- A directive that runs on, a literal with a line end and both kinds of comments; and a comment that
is left open on the third line. -/
theorem normalize_crlf_lines :
    (normalize "#a \\\nb\nc = \"d\n\"; // e\n/* f\n*/ g".toList = .ok "c = \"d \";g".toList ∧
      normalize "#a \\\r\nb\r\nc = \"d\r\n\"; // e\r\n/* f\r\n*/ g".toList =
        .ok "c = \"d \";g".toList) ∧
    normalize "#if\n// a\nb /* c".toList = .error (.unterminatedComment 11) ∧
      normalize "#if\r\n// a\r\nb /* c".toList = .error (.unterminatedComment 13) := by
  have hok : normalize "#a \\\nb\nc = \"d\n\"; // e\n/* f\n*/ g".toList =
      .ok "c = \"d \";g".toList := by
    decide +kernel
  have hends : Text.crlf "#a \\\nb\nc = \"d\n\"; // e\n/* f\n*/ g".toList =
      "#a \\\r\nb\r\nc = \"d\r\n\"; // e\r\n/* f\r\n*/ g".toList := by
    decide +kernel
  have herror : normalize "#if\n// a\nb /* c".toList = .error (.unterminatedComment 11) := by
    decide +kernel
  have hends' : Text.crlf "#if\n// a\nb /* c".toList = "#if\r\n// a\r\nb /* c".toList := by
    decide +kernel
  have hsame := ((normalize_crlf _).1 _).1 hok
  obtain ⟨n, hn, hlater⟩ := (normalize_crlf _).2.2 _ herror
  obtain rfl : 11 = n := by simpa using hn
  have hfeeds : (Text.uptoByte 11 "#if\n// a\nb /* c".toList).count '\n' = 2 := by decide +kernel
  rw [hends] at hsame
  rw [hends', hfeeds] at hlater
  exact ⟨⟨hok, hsame⟩, herror, hlater⟩

end HeaderReflection
