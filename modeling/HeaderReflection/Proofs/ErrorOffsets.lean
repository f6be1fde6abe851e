/-
  HeaderReflection.Proofs.ErrorOffsets

  What stands where an error points. An open comment is reported at a byte of
  the raw header, since directives are blanked in place; every other error at
  the byte of a token of the normal form, which is the brace or the marker that
  the error names.
-/
import HeaderReflection.Proofs.Comments
import HeaderReflection.Proofs.Head
import HeaderReflection.Proofs.BracePairs
import HeaderReflection.Proofs.Body

namespace HeaderReflection

/-! ## Places in a text -/

namespace Text

/-- The part stands at byte `n` of the text. -/
def HasAt (s : Text) (n : Nat) (part : Text) : Prop :=
  ∃ before after, s = before ++ (part ++ after) ∧ before.size = n

variable {s t : Text} {n : Nat} {a b c : Char}

/-- A character of two texts in a row is one of the first or of the second. -/
theorem hasAt_append :
    HasAt (s ++ t) n [c] ↔ HasAt s n [c] ∨ ∃ m, n = s.size + m ∧ HasAt t m [c] := by
  constructor
  · rintro ⟨before, after, h, rfl⟩
    rw [List.append_eq_append_iff] at h
    rcases h with ⟨rest, rfl, rfl⟩ | ⟨rest, rfl, h⟩
    · exact .inr ⟨Text.size rest, Text.size_append _ _, rest, after, rfl, rfl⟩
    · cases rest with
      | nil => exact .inr ⟨0, by simp, [], after, by simpa using h.symm, rfl⟩
      | cons d rest =>
        obtain ⟨rfl, -⟩ := List.cons.inj h
        exact .inl ⟨before, rest, rfl, rfl⟩
  · rintro (⟨before, after, rfl, rfl⟩ | ⟨m, rfl, before, after, rfl, rfl⟩)
    · exact ⟨before, after ++ t, by simp, rfl⟩
    · exact ⟨s ++ before, after, by simp, Text.size_append _ _⟩

/-- Two characters that stand one behind the other are a pair. -/
theorem hasAt_pair (ha : HasAt s n [a]) (hb : HasAt s (n + a.utf8Size) [b]) : HasAt s n [a, b] := by
  obtain ⟨before, after, rfl, rfl⟩ := ha
  have hsplit : HasAt ((before ++ [a]) ++ after) (before.size + a.utf8Size) [b] := by simpa using hb
  rcases hasAt_append.1 hsplit with ⟨x, y, hxy, hsize⟩ | ⟨m, hm, x, y, rfl, hsize⟩
  · -- The text up to the first character is too short to hold the second.
    have hlength := congrArg Text.size hxy
    have hpos := b.utf8Size_pos
    simp only [Text.size_append, Text.size_cons, Text.size_nil] at hlength
    omega
  · obtain rfl : x = [] := by
      cases x with
      | nil => rfl
      | cons d x =>
        have := d.utf8Size_pos
        simp only [Text.size_append, Text.size_cons, Text.size_nil] at hm hsize
        omega
    exact ⟨before, y, by simp, rfl⟩

end Text

/-! ## Directives -/

namespace NormalForm

variable {s : Text} {n : Nat} {c : Char} {ls : List Text} {k : Bool}

theorem not_hasAt_spaces (hc : c ≠ ' ') (m : Nat) : ¬ Text.HasAt (List.replicate m ' ') n [c] := by
  rintro ⟨before, after, h, -⟩
  exact hc (List.eq_of_mem_replicate (h ▸ by simp : c ∈ List.replicate m ' '))

/-- What is left of a blanked line stands where it stood. -/
theorem hasAt_of_blankLine (hc : c ≠ ' ') (h : (blankLine s).HasAt n [c]) : s.HasAt n [c] := by
  induction s generalizing n with
  | nil => exact h
  | cons d s ih =>
      rw [blankLine, List.flatMap_cons, ← blankLine] at h
      rw [← List.singleton_append, Text.hasAt_append]
      by_cases hd : d = '\n'
      · rw [if_pos (by simpa using hd), Text.hasAt_append] at h
        rcases h with h | ⟨m, hm, h⟩
        · exact .inl h
        · exact .inr ⟨m, hm, ih h⟩
      · rw [if_neg (by simpa using hd), Text.hasAt_append] at h
        rcases h with h | ⟨m, rfl, h⟩
        · exact absurd h (not_hasAt_spaces hc _)
        · refine .inr ⟨m, ?_, ih h⟩
          have := size_blankLine [d]
          simpa [blankLine, hd] using this

/-- What is left when directive lines are blanked stands where it stood. -/
theorem hasAt_of_blankDirectiveLines (hc : c ≠ ' ')
    (h : Text.HasAt (blankDirectiveLines k ls).flatten n [c]) : Text.HasAt ls.flatten n [c] := by
  induction ls generalizing k n with
  | nil => exact h
  | cons line ls ih =>
      rw [blankDirectiveLines] at h
      rw [List.flatten_cons, Text.hasAt_append]
      split at h
      · rw [List.flatten_cons, Text.hasAt_append, size_blankLine] at h
        rcases h with h | ⟨m, hm, h⟩
        · exact .inl (hasAt_of_blankLine hc h)
        · exact .inr ⟨m, hm, ih h⟩
      · rw [List.flatten_cons, Text.hasAt_append] at h
        rcases h with h | ⟨m, hm, h⟩
        · exact .inl h
        · exact .inr ⟨m, hm, ih h⟩

/-- What is left when directives are blanked stands where it stood. -/
theorem hasAt_of_blankDirectives (hc : c ≠ ' ') (h : (blankDirectives s).HasAt n [c]) :
    s.HasAt n [c] := by
  have := hasAt_of_blankDirectiveLines hc h
  rwa [Text.flatten_lines] at this

/-! ## Comments -/

/-- An open comment is reported where it begins. -/
theorem hasAt_of_dropBlockCommentsFrom {start : Nat} {e : ParseError}
    (h : dropBlockCommentsFrom start s = .error e) :
    ∃ n, e = .unterminatedComment (start + n) ∧ s.HasAt n ['/', '*'] := by
  fun_induction dropBlockCommentsFrom start s with
  | case1 => simp at h
  | case2 start s code r hopen hclose =>
      obtain rfl := Except.error.inj h
      exact ⟨code.size, rfl, code, r, Text.eq_of_breakAt hopen, rfl⟩
  | case3 start s code r hopen inside after hclose ih =>
      -- Before the next comment stand the code and the comment that have been gone past.
      obtain ⟨n, rfl, before, rest, rfl, rfl⟩ := ih (bind_pure_eq_error.1 h)
      refine ⟨code.size + 2 + inside.size + 2 + before.size, by simp only [Nat.add_assoc],
        code ++ '/' :: '*' :: (inside ++ '*' :: '/' :: before), rest, ?_, ?_⟩
      · rw [Text.eq_of_breakAt hopen, Text.eq_of_breakAt hclose]
        simp
      · have : ('/' : Char).utf8Size = 1 ∧ ('*' : Char).utf8Size = 1 := by decide
        simp only [Text.size_append, Text.size_cons]
        omega

/-- The only way for a header to have no normal form is an open comment, which is reported where it
begins in the raw header. -/
theorem hasAt_of_normalize {raw : Text} {e : ParseError} (h : normalize raw = .error e) :
    ∃ n, e = .unterminatedComment n ∧ raw.HasAt n ['/', '*'] := by
  obtain ⟨n, rfl, hat⟩ := hasAt_of_dropBlockCommentsFrom (bind_pure_eq_error.1 h)
  refine ⟨n, by rw [Nat.zero_add], ?_⟩
  -- Neither character of the pair is a space, so both stood there before the blanking.
  obtain ⟨before, after, hsplit, rfl⟩ := hat
  have hslash : (blankDirectives raw).HasAt before.size ['/'] :=
    ⟨before, '*' :: after, hsplit, rfl⟩
  have hstar : (blankDirectives raw).HasAt (before.size + ('/' : Char).utf8Size) ['*'] :=
    ⟨before ++ ['/'], after, by simpa using hsplit, by simp⟩
  exact Text.hasAt_pair (hasAt_of_blankDirectives (by decide) hslash)
    (hasAt_of_blankDirectives (by decide) hstar)

end NormalForm

/-! ## Braces -/

/-- The error is about a brace of the tokens without a partner, or about one that was open before
them. -/
inductive BraceFault (opened : List (Nat × Nat)) (ts : List Token) : ParseError → Prop
  | close {t : Token} (ht : t ∈ ts) (hkind : t.kind = .punct '\x7d') :
      BraceFault opened ts (.unmatchedClose t.start)
  | scope {t : Token} (ht : t ∈ ts) (hkind : t.kind = .punct '\x7b') :
      BraceFault opened ts (.unterminatedScope t.start)
  | opened {q : Nat × Nat} (hq : q ∈ opened) : BraceFault opened ts (.unterminatedScope q.2)

variable {opened opened' : List (Nat × Nat)} {ts : List Token} {e : ParseError}

/-- What is wrong behind a token is wrong in the longer list; the token may have been put on the
stack. -/
theorem BraceFault.cons {t : Token} (h : BraceFault opened' ts e)
    (hstack : ∀ q ∈ opened', q ∈ opened ∨ t.kind = .punct '\x7b' ∧ q.2 = t.start) :
    BraceFault opened (t :: ts) e := by
  cases h with
  | close ht hkind => exact .close (List.mem_cons_of_mem t ht) hkind
  | scope ht hkind => exact .scope (List.mem_cons_of_mem t ht) hkind
  | opened hq =>
      rcases hstack _ hq with hq | ⟨hkind, hstart⟩
      · exact .opened hq
      · rw [hstart]
        exact .scope List.mem_cons_self hkind

/-- A pairing fails at a brace. -/
theorem braceFault_of_pairBracesFrom {i : Nat} (h : pairBracesFrom i opened ts = .error e) :
    BraceFault opened ts e := by
  -- A fault of the rest is one of all tokens: what its stack has more is a brace among them.
  induction ts generalizing i opened with
  | nil =>
      cases opened with
      | nil => simp [pairBracesFrom] at h
      | cons q outer =>
          obtain rfl := Except.error.inj h
          exact .opened List.mem_cons_self
  | cons t ts ih =>
      by_cases hl : t.isPunct '\x7b'
      · rw [pairBracesFrom_cons_open hl] at h
        refine (ih h).cons fun q hq => ?_
        rcases List.mem_cons.1 hq with rfl | hq
        · exact .inr ⟨by simpa [Token.isPunct] using hl, rfl⟩
        · exact .inl hq
      by_cases hr : t.isPunct '\x7d'
      · cases opened with
        | nil =>
          rw [pairBracesFrom_nil_close hr] at h
          obtain rfl := Except.error.inj h
          exact .close List.mem_cons_self (by simpa [Token.isPunct] using hr)
        | cons q outer =>
          rw [pairBracesFrom_cons_close hr] at h
          exact (ih (bind_pure_eq_error.1 h)).cons fun r hr => .inl (List.mem_cons_of_mem q hr)
      · rw [pairBracesFrom_cons_other hl hr] at h
        exact (ih h).cons fun q hq => .inl hq

/-! ## Declarations -/

/-- The error is about a token of the stream, which is the marker or the brace that it names. -/
inductive TokenStream.Faults (s : TokenStream) : ParseError → Prop
  | keyword {kind : DeclKind} {m : Nat} (h : s.isIdent m kind.marker) :
      Faults s (.missingKeyword kind (s.offset m))
  | name {kind : DeclKind} {m : Nat} (h : s.isIdent m kind.marker) :
      Faults s (.missingName kind (s.offset m))
  | body {kind : DeclKind} {m : Nat} (h : s.isIdent m kind.marker) :
      Faults s (.missingBody kind (s.offset m))
  | scope {o : Nat} (h : s.isPunct o '\x7b') (hclose : s.closer o = none) :
      Faults s (.unterminatedScope (s.offset o))
  | field {m : Nat} (h : s.isIdent m fieldMarker) : Faults s (.unclosedField (s.offset m))

section Readers

variable {s : TokenStream} {scopes : ScopeTree} {kind : DeclKind} {m i o start close : Nat}

theorem faults_of_afterKeyword (hm : s.isIdent m kind.marker)
    (h : DeclHead.afterKeyword s kind m = .error e) : s.Faults e := by
  cases kind with
  | struct =>
      simp only [DeclHead.afterKeyword] at h
      split at h
      · simp at h
      split at h
      · simp at h
      · obtain rfl := Except.error.inj h
        exact .keyword hm
  | enum =>
      simp only [DeclHead.afterKeyword] at h
      split at h
      · simp at h
      split at h
      · simp at h
      · obtain rfl := Except.error.inj h
        exact .keyword hm

theorem faults_of_readHead (hm : s.isIdent m kind.marker)
    (h : DeclHead.read s kind m start = .error e) : s.Faults e := by
  simp only [DeclHead.read] at h
  split at h
  · obtain rfl := Except.error.inj h
    exact .body hm
  · split at h
    · obtain rfl := Except.error.inj h
      exact .name hm
    · simp at h

theorem faults_of_bodyClose (ho : s.isPunct o '\x7b') (h : bodyClose s o = .error e) :
    s.Faults e := by
  rw [bodyClose] at h
  split at h
  · simp at h
  · next hclose =>
    obtain rfl := Except.error.inj h
    exact .scope ho hclose

theorem faults_of_collectFieldsFrom (h : collectFieldsFrom s close i = .error e) : s.Faults e := by
  fun_induction collectFieldsFrom s close i with
  | case1 => simp at h
  | case2 i m hfind hopen hparen =>
      obtain rfl := Except.error.inj h
      exact .field (TokenStream.findIdent_eq_some.1 hfind).2.1
  | case3 i m hfind hopen paren hparen ih =>
      exact ih (bind_pure_eq_error.1 h)
  | case4 i m hfind hopen ih => exact ih h

/-- Keyword, head and end of a marked declaration are found one after the other, and then its body
is read. -/
theorem faults_or_of_declaration {β : Type} {readBody : DeclHead → Nat → Except ParseError β}
    (hm : s.isIdent m kind.marker)
    (h : (do
      let start ← DeclHead.afterKeyword s kind m
      let head ← DeclHead.read s kind m start
      let close ← bodyClose s head.body
      readBody head close) = .error e) :
    s.Faults e ∨ ∃ head close, readBody head close = .error e := by
  rcases bind_eq_error.1 h with h | ⟨start, -, h⟩
  · exact .inl (faults_of_afterKeyword hm h)
  rcases bind_eq_error.1 h with h | ⟨head, hread, h⟩
  · exact .inl (faults_of_readHead hm h)
  rcases bind_eq_error.1 h with h | ⟨close, -, h⟩
  · -- The body of a head opens with a brace.
    exact .inl (faults_of_bodyClose (DeclHead.read_body hread).2.1 h)
  · exact .inr ⟨head, close, h⟩

theorem faults_of_readStruct (hm : s.isIdent m DeclKind.struct.marker)
    (h : readStruct s scopes m = .error e) : s.Faults e := by
  rcases faults_or_of_declaration hm h with h | ⟨head, close, h⟩
  · exact h
  · exact faults_of_collectFieldsFrom (bind_pure_eq_error.1 h)

theorem faults_of_readEnum (hm : s.isIdent m DeclKind.enum.marker)
    (h : readEnum s scopes m = .error e) : s.Faults e := by
  rcases faults_or_of_declaration hm h with h | ⟨head, close, h⟩
  · exact h
  · simp [pure, Except.pure] at h

/-- A collection fails only where the reading of one of its markers fails. -/
theorem exists_of_collect_eq_error {α : Type} {name : Text}
    {read : Nat → Except ParseError (α × Nat)} {c : Cursor}
    (h : Cursor.collect name (resumeInBody read) c = .error e) :
    ∃ m, c.stream.isIdent m name ∧ read m = .error e := by
  fun_induction Cursor.collect name (resumeInBody read) c with
  | case1 => simp at h
  | case2 c m next hnext ih =>
      obtain ⟨hcursor, -, -⟩ := Cursor.nextIdent_bounds hnext
      have hm : c.stream.isIdent m name := by
        simp only [Cursor.nextIdent] at hnext
        split at hnext
        · next hfind =>
          simp only [Prod.mk.injEq, Option.some.injEq] at hnext
          exact hnext.1 ▸ (TokenStream.findIdent_eq_some.1 hfind).2.1
        · simp at hnext
      rcases bind_eq_error.1 h with h | ⟨found, -, h⟩
      · rcases bind_eq_error.1 h with h | ⟨found, -, h⟩
        · exact ⟨m, hm, h⟩
        · simp [pure, Except.pure] at h
      · subst hcursor
        exact ih found.2 (bind_pure_eq_error.1 h)

theorem faults_of_extract (h : extract s scopes = .error e) : s.Faults e := by
  rcases bind_eq_error.1 h with h | ⟨structs, -, h⟩
  · obtain ⟨m, hm, h⟩ := exists_of_collect_eq_error h
    exact faults_of_readStruct hm h
  · obtain ⟨m, hm, h⟩ := exists_of_collect_eq_error (bind_pure_eq_error.1 h)
    exact faults_of_readEnum hm h

end Readers

/-! ## Whole headers -/

/-- A token of the text has its first byte at `n`, is of the given kind and reads `lexeme`. -/
def Token.Stands (source : Text) (n : Nat) (kind : TokenKind) (lexeme : Text) : Prop :=
  source.HasAt n lexeme ∧ ⟨kind, n, lexeme⟩ ∈ Token.scan source

/-- The byte that the error reports is that of what it names: of the comment in the raw header, and
of the brace or the marker in its normal form. -/
def ParseError.PointsAt (raw : Text) : ParseError → Prop
  | unterminatedComment n => raw.HasAt n "/*".toList
  | unterminatedScope n =>
    ∃ source, normalize raw = .ok source ∧ Token.Stands source n (.punct '\x7b') "\x7b".toList
  | unmatchedClose n =>
    ∃ source, normalize raw = .ok source ∧ Token.Stands source n (.punct '\x7d') "\x7d".toList
  | missingKeyword kind n | missingName kind n | missingBody kind n =>
    ∃ source, normalize raw = .ok source ∧ Token.Stands source n .ident kind.marker
  | unclosedField n =>
    ∃ source, normalize raw = .ok source ∧ Token.Stands source n .ident fieldMarker

namespace Token

variable {source : Text} {s : TokenStream} {t : Token} {c : Char} {i : Nat} {name : Text}

theorem stands_of_mem_scan (ht : t ∈ scan source) : Stands source t.start t.kind t.lexeme := by
  obtain ⟨before, after, hsplit, hstart⟩ := exists_append_of_mem_scanFrom ht
  exact ⟨⟨before, after, hsplit, by rw [hstart, Nat.zero_add]⟩, ht⟩

theorem stands_of_punct (ht : t ∈ scan source) (hkind : t.kind = .punct c) :
    Stands source t.start (.punct c) [c] := by
  have := stands_of_mem_scan ht
  rwa [hkind, lexeme_of_punct ht hkind] at this

theorem stands_of_isPunct (h : tokenize source = .ok s) (hi : s.isPunct i c) :
    Stands source (s.offset i) (.punct c) [c] := by
  obtain ⟨t, ht, hkind⟩ := TokenStream.isPunct_iff.1 hi
  rw [TokenStream.offset_of_token? ht]
  rw [TokenStream.token?_of_tokenize h] at ht
  exact stands_of_punct (List.mem_of_getElem? ht) hkind

theorem stands_of_isIdent (h : tokenize source = .ok s) (hi : s.isIdent i name) :
    Stands source (s.offset i) .ident name := by
  obtain ⟨t, ht, hkind, rfl⟩ := TokenStream.isIdent_iff.1 hi
  rw [TokenStream.offset_of_token? ht, ← hkind]
  rw [TokenStream.token?_of_tokenize h] at ht
  exact stands_of_mem_scan (List.mem_of_getElem? ht)

end Token

/-- Every error of an extraction points at what it names. -/
theorem extractSource_error_pointsAt {raw : Text}
    (h : extractSource raw = .error e) : e.PointsAt raw := by
  rcases bind_eq_error.1 h with h | ⟨source, hsource, h⟩
  · obtain ⟨n, rfl, hat⟩ := NormalForm.hasAt_of_normalize h
    exact hat
  rcases bind_eq_error.1 h with h | ⟨s, hs, h⟩
  -- The braces are paired before there is a stream of tokens.
  · cases braceFault_of_pairBracesFrom (bind_pure_eq_error.1 h) with
    | close ht hkind => exact ⟨source, hsource, Token.stands_of_punct ht hkind⟩
    | scope ht hkind => exact ⟨source, hsource, Token.stands_of_punct ht hkind⟩
    | opened hq => simp at hq
  · cases faults_of_extract h with
    | keyword hm => exact ⟨source, hsource, Token.stands_of_isIdent hs hm⟩
    | name hm => exact ⟨source, hsource, Token.stands_of_isIdent hs hm⟩
    | body hm => exact ⟨source, hsource, Token.stands_of_isIdent hs hm⟩
    | scope ho => exact ⟨source, hsource, Token.stands_of_isPunct hs ho⟩
    | field hm => exact ⟨source, hsource, Token.stands_of_isIdent hs hm⟩

/-- A comment is left open behind a directive with a character of two bytes, and a field is left
open behind a string with one. -/
theorem extractSource_error_pointsAt_open :
    (extractSource "#define \u00e9 1\nint a; /* b".toList = .error (.unterminatedComment 20) ∧
      ParseError.PointsAt "#define \u00e9 1\nint a; /* b".toList (.unterminatedComment 20)) ∧
    extractSource "REFLECT_STRUCT\nstruct A \x7b \"\u00e9\" REFLECT(b \x7d".toList =
        .error (.unclosedField 29) ∧
      ParseError.PointsAt "REFLECT_STRUCT\nstruct A \x7b \"\u00e9\" REFLECT(b \x7d".toList
        (.unclosedField 29) := by
  have hcomment : extractSource "#define \u00e9 1\nint a; /* b".toList =
      .error (.unterminatedComment 20) := by
    decide +kernel
  have hfield : extractSource "REFLECT_STRUCT\nstruct A \x7b \"\u00e9\" REFLECT(b \x7d".toList =
      .error (.unclosedField 29) := by
    decide +kernel
  exact ⟨⟨hcomment, extractSource_error_pointsAt hcomment⟩, hfield,
    extractSource_error_pointsAt hfield⟩

end HeaderReflection
