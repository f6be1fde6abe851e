/-
  HeaderReflection.Proofs.Strings.Escaping

  A string whose content is not contained escapes as a comment. A block comment
  that it opens is closed nowhere. A line comment that starts in it takes its
  closing quote, so the string goes on to the end of the header and takes the
  brace that closes the struct.
-/
import HeaderReflection.Proofs.Steps
import HeaderReflection.Proofs.Strings.Fields

namespace HeaderReflection

/-- A text with an opening brace and without a closing one has no token stream. -/
theorem tokenize_ne_ok {source : Text} {s : TokenStream}
    (hopen : TokenKind.punct '{' ∈ (Token.scan source).map Token.kind)
    (hclose : TokenKind.punct '}' ∉ (Token.scan source).map Token.kind) : tokenize source ≠ .ok s := by
  intro hs
  have htokens : s.tokens.toList = Token.scan source := by
    obtain ⟨pairs, -, rfl⟩ := TokenStream.tokenize_eq_ok.1 hs
    rfl
  have hmem : ∀ {c}, .punct c ∈ (Token.scan source).map Token.kind ↔ ∃ i, s.isPunct i c := by
    intro c
    simp only [TokenStream.isPunct_iff, TokenStream.token?, ← Array.getElem?_toList, htokens,
      List.mem_iff_getElem?, List.getElem?_map, Option.map_eq_some_iff]
  obtain ⟨o, ho⟩ := hmem.1 hopen
  obtain ⟨c, hc⟩ := TokenStream.exists_closer hs ho
  exact hclose (hmem.2 ⟨c, (TokenStream.closer_spec hs hc).2.1⟩)

/-- A quote without another one behind it takes the rest of the text. -/
theorem Token.scanFrom_open_quote {s : Text} (hs : '"' ∉ s) (n : Nat) :
    Token.scanFrom n ('"' :: s) = [⟨.literal, n, '"' :: s⟩] := by
  have htail : ∀ escaped, Token.literalTail '"' escaped s = (s, []) := by
    induction s with
    | nil => exact fun _ => rfl
    | cons c s ih =>
        rw [List.mem_cons, not_or] at hs
        intro escaped
        have hc : (!escaped && c == '"') = false := by
          rw [Bool.and_eq_false_iff]
          exact Or.inr (beq_false_of_ne (Ne.symm hs.1))
        rw [Token.literalTail, hc, ih hs.2]
        rfl
  have hcut : Token.cut '"' s = (.literal, s, []) := by
    show (TokenKind.literal, Token.literalTail '"' false s) = _
    rw [htail]
  rw [Token.scanFrom_of_cut (by decide) hcut, Token.scanFrom_of_forall_blank (s := []) (by simp)]

namespace StringField

open NormalForm

variable {f : StringField} {u x code r : Text} {c : Char} {e : Extraction}

/-! ## The passes -/

/-- What stands before the string of a header with one field. -/
def before (f : StringField) : Text :=
  prologue ++ (opening ++ (f.name ++ equals))

theorem header_singleton (f : StringField) :
    header [f] = f.before ++ '"' :: (f.content ++ '"' :: (ending ++ epilogue)) := by
  rw [header, List.flatMap_cons, List.flatMap_nil, List.append_nil, line_append, before]
  simp only [List.append_assoc]

theorem not_mem_before (f : StringField) (hc : c ∈ ['#', '/']) : c ∉ f.before := by
  have hname : c ∉ f.name := by
    apply f.not_mem_name
    simp only [List.mem_cons, List.not_mem_nil, or_false] at hc
    rcases hc with rfl | rfl <;> decide
  simp only [before, List.mem_append, not_or]
  refine ⟨?_, ?_, hname, ?_⟩ <;>
  · simp only [List.mem_cons, List.not_mem_nil, or_false] at hc
    rcases hc with rfl | rfl <;> decide

theorem blankDirectives_singleton (f : StringField) : blankDirectives (header [f]) = header [f] := by
  have hend : Becomes (ending ++ epilogue) (ending ++ epilogue) := by
    simpa using Becomes.nil.append (s := ending ++ epilogue) (by decide)
  have hstring := becomes_string hend (f.plain '\n' (by simp))
  rw [header_singleton]
  exact (hstring.append (f.not_mem_before (by simp))).blankDirectives_eq

/-- A block comment that the content opens is closed in it, or nowhere. -/
theorem exists_of_normalize (h : normalize (header [f]) = .ok x) :
    ∃ u, dropBlockComments f.content = .ok u := by
  obtain ⟨code, hcode, -⟩ := normalize_eq_ok.1 h
  rw [blankDirectives_singleton, header_singleton, ← List.singleton_append, ← List.append_assoc] at hcode
  have hbefore : '/' ∉ f.before ++ ['"'] := by
    simpa using f.not_mem_before (c := '/') (by simp)
  obtain ⟨start, u, hu⟩ := exists_of_append_left hbefore hcode
  obtain ⟨u, hu⟩ := exists_of_append (by decide) hu
  exact ⟨u, drops_of_eq_ok hu 0⟩

/-- A line comment in the content takes the rest of the line. -/
theorem normalize_of_breakAt (hdrop : dropBlockComments f.content = .ok u)
    (hu : Text.breakAt '/' '/' u = some (code, r)) :
    normalize (header [f]) = .ok (Piece.textOf (prologuePieces ++ f.markedPieces) ++
      '"' :: spaceOut allowsSpace (some '"') false (code ++ '\n' :: epilogue)) := by
  have hend : Drops (ending ++ epilogue) (ending ++ epilogue) := by
    intro start
    exact dropBlockCommentsFrom_of_none (by decide)
  have hslash : '/' ∉ f.before := f.not_mem_before (by simp)
  have hcode : dropBlockComments (header [f]) =
      .ok (f.before ++ '"' :: (u ++ '"' :: (ending ++ epilogue))) := by
    rw [header_singleton]
    exact (drops_string hend hdrop).append hslash 0
  -- The comment takes the closing quote and the semicolon, up to the end of the line.
  have hfeed : '\n' ∉ r ++ ['"', ';'] := by
    have hnone : '\n' ∉ u := fun hin => f.plain '\n' (by simp) (mem_of_drops hdrop hin)
    simpa using (Text.not_mem_of_breakAt hu hnone).2
  have hline : dropLineComments (u ++ '"' :: (ending ++ epilogue)) = code ++ '\n' :: epilogue := by
    have htaken := dropLineComments_line (Text.breakAt_append_of_some hu ['"', ';']) hfeed epilogue
    rw [List.append_assoc, dropLineComments_of_none (s := epilogue) (by decide)] at htaken
    exact htaken
  have hrespace := respace_prologue (opening ++ (f.name ++ (equals ++
    '"' :: (code ++ '\n' :: epilogue))))
  rw [f.spaceOut_marked (Or.inl rfl)] at hrespace
  refine normalize_eq_ok.2 ⟨_, by rw [blankDirectives_singleton, hcode], ?_⟩
  rw [dropLineComments_append hslash, dropLineComments_quote, hline, Piece.textOf_append,
    List.append_assoc, ← hrespace, before]
  simp only [List.append_assoc]

/-! ## No extraction -/

/-- A string that no quote closes takes the rest of the header, and the struct has no end. -/
theorem tokenize_ne_ok_of_open_quote {s : TokenStream} (hu : '"' ∉ u) :
    tokenize (Piece.textOf (prologuePieces ++ f.markedPieces) ++ '"' :: u) ≠ .ok s := by
  have hkinds : (Token.scan (Piece.textOf (prologuePieces ++ f.markedPieces) ++ '"' :: u)).map
      Token.kind = [.ident, .ident, .ident, .punct '\x7b', .ident, .ident, .punct '(', .ident,
        .punct ')', .punct '=', .literal] := by
    rw [Token.scan, cutOff_prologuePieces.append f.cutOff_markedPieces, Token.scanFrom_open_quote hu]
    rfl
  refine tokenize_ne_ok ?_ ?_
  · rw [hkinds]
    decide
  · rw [hkinds]
    decide

/-- A header with one field whose string is not contained is not extracted. -/
theorem extractSource_ne_ok (hf : ¬ f.Contained) : extractSource (header [f]) ≠ .ok e := by
  intro h
  obtain ⟨x, s, hx, hs, -⟩ := extractSource_eq_ok.1 h
  obtain ⟨u, hdrop⟩ := exists_of_normalize hx
  obtain ⟨⟨code, r⟩, hu⟩ : ∃ parts, Text.breakAt '/' '/' u = some parts := by
    refine Option.ne_none_iff_exists'.1 fun hnone => hf ⟨u, hdrop, ?_⟩
    exact Text.breakAt_eq_none_iff.1 hnone
  have hnormal := normalize_of_breakAt hdrop hu
  obtain rfl := Except.ok.inj (hnormal.symm.trans hx)
  have hquote : '"' ∉ u := fun hin => f.plain '"' (by simp) (mem_of_drops hdrop hin)
  refine tokenize_ne_ok_of_open_quote (fun hin => ?_) hs
  rcases mem_of_mem_spaceOut hin with heq | hin
  · cases heq
  · rcases List.mem_append.1 hin with hin | hin
    · exact (Text.not_mem_of_breakAt hu hquote).1 hin
    · exact absurd hin (by decide)

end StringField

end HeaderReflection
