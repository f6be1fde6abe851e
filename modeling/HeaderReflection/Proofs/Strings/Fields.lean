/-
  HeaderReflection.Proofs.Strings.Fields

  Headers whose fields have strings as default values, and what the passes leave
  of them. The passes do not know strings: they leave the quotes of a string
  alone if every block comment that its content opens is closed in it and no
  line comment starts in what is left.
-/
import HeaderReflection.Proofs.Comments
import HeaderReflection.Proofs.Header.Model
import HeaderReflection.Proofs.SpacingPass
import HeaderReflection.Proofs.Strings.Pieces

namespace HeaderReflection

/-- A marked field with a string as its default value. -/
structure StringField where
  name : Text
  content : Text
  is_identifier : Piece.isIdentifier name
  unreserved : ∀ k ∈ Keyword.reserved, name ≠ k.text
  /-- The content neither ends the string nor the line. -/
  plain : ∀ c ∈ ['"', '\\', '\r', '\n'], c ∉ content

namespace StringField

/-- What stands in a line before the name. -/
def opening : Text :=
  "T REFLECT(".toList

/-- What stands between the name and the string. -/
def equals : Text :=
  ") = ".toList

/-- What stands behind the string. -/
def ending : Text :=
  ";\n".toList

/-- The line that declares the field. -/
def line (f : StringField) : Text :=
  opening ++ (f.name ++ (equals ++ '"' :: (f.content ++ '"' :: ending)))

/-- The lines before the fields. -/
def prologue : Text :=
  "REFLECT_STRUCT\nstruct S\n\x7b\n".toList

/-- The line behind the fields. -/
def epilogue : Text :=
  "\x7d;\n".toList

/-- The header of a marked struct `S` with the given fields. -/
def header (fs : List StringField) : Text :=
  prologue ++ (fs.flatMap line ++ epilogue)

/-- The block comments of the content are closed in it, and without them no line comment starts. -/
def Contained (f : StringField) : Prop :=
  ∃ u, NormalForm.dropBlockComments f.content = .ok u ∧ ¬ ['/', '/'] <:+: u

/-- The field with another content. -/
def withContent (f : StringField) (content : Text)
    (h : ∀ c ∈ content, c = ' ' ∨ c ∈ f.content) : StringField :=
  { f with
    content := content
    plain := fun c hc hin => by
      rcases h c hin with rfl | hin
      · simp at hc
      · exact f.plain c hc hin }

variable {f : StringField} {fs gs : List StringField} {s t r u : Text} {c : Char}

theorem line_append (f : StringField) (t : Text) :
    f.line ++ t = opening ++ (f.name ++ (equals ++ '"' :: (f.content ++ '"' :: (ending ++ t)))) := by
  simp only [line, List.append_assoc, List.cons_append]

theorem isWordChar_of_mem (hc : c ∈ f.name) : isWordChar c := by
  have h := f.is_identifier
  rw [Piece.isIdentifier, Bool.and_eq_true] at h
  exact List.all_eq_true.1 h.2 c hc

theorem not_mem_name (f : StringField) (hc : c ∈ strangers) : c ∉ f.name := fun hin =>
  not_mem_strangers (isWordChar_of_mem hin) hc

/-! ## Directives and comments -/

open NormalForm

/-- A string starts no directive. -/
theorem becomes_string (h : Becomes t r) (hfeed : '\n' ∉ s) :
    Becomes ('"' :: (s ++ '"' :: t)) ('"' :: (s ++ '"' :: r)) := by
  have hquote : Becomes ('"' :: t) ('"' :: r) := h.cons (by decide)
  have hfeed' : '\n' ∉ '"' :: s := by simpa using hfeed
  exact hquote.append_of_not_mem hfeed' (by decide) (by decide) (by decide)

/-- The quotes of a string stay, and of its content what is in no block comment. -/
theorem drops_string (h : Drops t r) (hdrop : dropBlockComments s = .ok u) :
    Drops ('"' :: (s ++ '"' :: t)) ('"' :: (u ++ '"' :: r)) := by
  have hinside := drops_append_cons hdrop (show '"' ≠ '/' by decide) (by decide) h
  exact hinside.append (s := ['"']) (by decide)

theorem dropLineComments_quote (t : Text) : dropLineComments ('"' :: t) = '"' :: dropLineComments t :=
  dropLineComments_append (s := ['"']) (by decide) t

/-- The quotes of a string stay, and of its content what is no comment. -/
theorem reduces_string (h : Reduces t r) (hfeed : '\n' ∉ s) (hdrop : dropBlockComments s = .ok u)
    (hu : ¬ ['/', '/'] <:+: u) :
    Reduces ('"' :: (s ++ '"' :: t)) ('"' :: (u ++ '"' :: r)) := by
  obtain ⟨t₁, t₂, hbecomes, hdrops, rfl⟩ := h
  refine ⟨_, _, becomes_string hbecomes hfeed, drops_string hdrops hdrop, ?_⟩
  rw [dropLineComments_quote, dropLineComments_append_cons (Text.breakAt_eq_none_iff.2 hu) (by decide),
    dropLineComments_quote]

/-- The passes leave a line with the field's name, if its content is contained. -/
theorem exists_reduces_line (hf : f.Contained) (h : Reduces t r) :
    ∃ g : StringField, g.name = f.name ∧ Reduces (f.line ++ t) (g.line ++ r) := by
  obtain ⟨u, hdrop, hu⟩ := hf
  refine ⟨f.withContent u fun c hc => Or.inr (mem_of_drops hdrop hc), rfl, ?_⟩
  have hend : Reduces (ending ++ t) (ending ++ r) := h.plain (by decide) (by decide)
  have hstring := reduces_string hend (f.plain '\n' (by simp)) hdrop hu
  have hequals := hstring.plain (s := equals) (by decide) (by decide)
  have hname := hequals.plain (not_mem_name f (by decide)) (not_mem_name f (by decide))
  rw [line_append, line_append]
  exact hname.plain (by decide) (by decide)

theorem exists_reduces_lines (hfs : ∀ f ∈ fs, Contained f) (h : Reduces t r) :
    ∃ gs : List StringField, gs.map name = fs.map name ∧
      Reduces (fs.flatMap line ++ t) (gs.flatMap line ++ r) := by
  induction fs with
  | nil => exact ⟨[], rfl, h⟩
  | cons f fs ih =>
      rw [List.forall_mem_cons] at hfs
      obtain ⟨gs, hnames, hlines⟩ := ih hfs.2
      obtain ⟨g, hname, hline⟩ := exists_reduces_line hfs.1 hlines
      refine ⟨g :: gs, by rw [List.map_cons, List.map_cons, hname, hnames], ?_⟩
      rwa [List.flatMap_cons, List.flatMap_cons, List.append_assoc, List.append_assoc]

/-- The passes leave a header with the same fields, if all contents are contained. -/
theorem exists_normalize_header (hfs : ∀ f ∈ fs, Contained f) :
    ∃ gs : List StringField, gs.map name = fs.map name ∧
      normalize (header fs) = .ok (respace (header gs)) := by
  have hend : Reduces epilogue epilogue := by
    simpa using Reduces.nil.plain (s := epilogue) (by decide) (by decide)
  obtain ⟨gs, hnames, hlines⟩ := exists_reduces_lines hfs hend
  exact ⟨gs, hnames, (hlines.plain (by decide) (by decide)).normalize_eq⟩

/-! ## Spacing -/

/-- What canonical spacing leaves of the content of a string. -/
def squeeze (content : Text) : Text :=
  let part := spacePart allowsSpace (some '"') false content
  part.written ++ spaceIf (part.pending && allowsSpace part.last (some '"'))

theorem mem_of_mem_squeeze (hc : c ∈ squeeze s) : c = ' ' ∨ c ∈ s := by
  rw [squeeze, List.mem_append] at hc
  rcases hc with hc | hc
  · exact mem_of_mem_written hc
  · exact Or.inl (eq_space_of_mem_spaceIf hc)

theorem spaceOut_string (s t : Text) :
    spaceOut allowsSpace (some '"') false (s ++ '"' :: t) =
      squeeze s ++ '"' :: spaceOut allowsSpace (some '"') false t := by
  rw [spaceOut_append, spaceOut_of_not_layout (by decide), squeeze, List.append_assoc]

/-- A word is written as it is. -/
theorem exists_spacePart_word (hs : ∀ c ∈ s, isWordChar c) (c : Char) :
    ∃ d, spacePart allowsSpace (some c) false s = ⟨s, some d, false⟩ := by
  induction s generalizing c with
  | nil => exact ⟨c, rfl⟩
  | cons d s ih =>
      rw [List.forall_mem_cons] at hs
      obtain ⟨e, he⟩ := ih hs.2 d
      have hd : isLayout d = false := by
        have hstranger := not_mem_strangers hs.1
        simp only [strangers, List.mem_cons, not_or] at hstranger
        simp [isLayout, hstranger]
      exact ⟨e, by rw [spacePart_of_not_layout hd, he]; rfl⟩

/-! ## The normal form in pieces -/

/-- The field as canonical spacing leaves it. -/
def squeezed (f : StringField) : StringField :=
  f.withContent (squeeze f.content) fun _ => mem_of_mem_squeeze

/-- The type of a field, its marker and the parenthesis behind it. -/
def openingPieces : List Piece :=
  [.word "T".toList [' '], .word "REFLECT".toList [], .mark .openParen []]

/-- What stands between the name of a field and its default value. -/
def equalsPieces : List Piece :=
  [.mark .closeParen [' '], .mark .equals [' ']]

/-- The tokens of a field before its default value. -/
def markedPieces (f : StringField) : List Piece :=
  openingPieces ++ (.word f.name [] :: equalsPieces)

/-- The tokens of a field. -/
def pieces (f : StringField) : List Piece :=
  f.markedPieces ++ [.string f.content, .mark .semicolon []]

/-- The struct up to its first field. -/
def prologuePieces : List Piece :=
  [.word "REFLECT_STRUCT".toList [' '], .word "struct".toList [' '], .word "S".toList [],
    .mark .openBrace []]

/-- The end of the struct. -/
def epiloguePieces : List Piece :=
  [.mark .closeBrace [], .mark .semicolon []]

/-- The tokens of a header. -/
def headerPieces (fs : List StringField) : List Piece :=
  prologuePieces ++ (fs.flatMap pieces ++ epiloguePieces)

theorem cutOff_markedPieces (f : StringField) : Piece.CutOff f.markedPieces := by
  have hmarked : Piece.CutOff openingPieces := .append (.word (by decide)) <|
    .word_mark (by decide) _ (by simp)
  have hnamed : Piece.CutOff (.word f.name [] :: equalsPieces) := .append
    (.word_mark f.is_identifier _ (by simp)) (.mark _ (by simp))
  exact hmarked.append hnamed

theorem cutOff_pieces (f : StringField) : Piece.CutOff f.pieces := by
  have hstring : Piece.CutOff [.string f.content, .mark .semicolon []] := .append
    (.string (f.plain '"' (by simp)) (f.plain '\\' (by simp))) (.mark _ (by simp))
  exact f.cutOff_markedPieces.append hstring

theorem cutOff_prologuePieces : Piece.CutOff prologuePieces :=
  .append (.word (by decide)) (.append (.word (by decide)) (.word_mark (by decide) _ (by simp)))

theorem cutOff_headerPieces (fs : List StringField) : Piece.CutOff (headerPieces fs) := by
  have hepilogue : Piece.CutOff epiloguePieces := .append (.mark _ (by simp)) (.mark _ (by simp))
  exact cutOff_prologuePieces.append (.append (.flatMap fun f _ => f.cutOff_pieces) hepilogue)

/-- What stands before the string is written as its tokens. -/
theorem spaceOut_marked (f : StringField) {d : Char} (hd : d = '\x7b' ∨ d = ';') (t : Text) :
    spaceOut allowsSpace (some d) true (opening ++ (f.name ++ (equals ++ '"' :: t))) =
      Piece.textOf f.markedPieces ++ '"' :: spaceOut allowsSpace (some '"') false t := by
  have hopening : spacePart allowsSpace (some d) true opening =
      ⟨Piece.textOf openingPieces, some '(', false⟩ := by
    rcases hd with rfl | rfl <;> decide
  obtain ⟨e, hname⟩ := exists_spacePart_word (fun _ => isWordChar_of_mem) '('
  have hequals : spaceOut allowsSpace (some e) false (equals ++ '"' :: t) =
      Piece.textOf equalsPieces ++ '"' :: spaceOut allowsSpace (some '"') false t := rfl
  rw [spaceOut_append, hopening, spaceOut_append, hname, hequals]
  simp [markedPieces, Piece.text, Piece.word]

/-- A line behind an opening brace or a semicolon is written as its tokens. -/
theorem spaceOut_line (f : StringField) {d : Char} (hd : d = '\x7b' ∨ d = ';') (t : Text) :
    spaceOut allowsSpace (some d) true (f.line ++ t) =
      Piece.textOf f.squeezed.pieces ++ spaceOut allowsSpace (some ';') true t := by
  have hending : spaceOut allowsSpace (some '"') false (ending ++ t) =
      Piece.textOf [.mark .semicolon []] ++ spaceOut allowsSpace (some ';') true t := rfl
  have htext : Piece.textOf f.squeezed.pieces = Piece.textOf f.markedPieces ++
      '"' :: (squeeze f.content ++ '"' :: Piece.textOf [.mark .semicolon []]) := by
    simp [pieces, squeezed, withContent, markedPieces, Piece.text, Piece.string]
  rw [line_append, spaceOut_marked f hd, spaceOut_string, hending, htext]
  simp only [List.append_assoc, List.cons_append]

theorem spaceOut_lines (fs : List StringField) {d : Char} (hd : d = '\x7b' ∨ d = ';') :
    spaceOut allowsSpace (some d) true (fs.flatMap line ++ epilogue) =
      Piece.textOf ((fs.map squeezed).flatMap pieces ++ epiloguePieces) := by
  induction fs generalizing d with
  | nil => rcases hd with rfl | rfl <;> decide
  | cons f fs ih =>
      rw [List.flatMap_cons, List.append_assoc, spaceOut_line f hd, ih (Or.inr rfl), List.map_cons,
        List.flatMap_cons, List.append_assoc, ← Piece.textOf_append]

theorem respace_prologue (t : Text) : respace (prologue ++ t) =
    Piece.textOf prologuePieces ++ spaceOut allowsSpace (some '\x7b') true t := by
  have hprologue : spacePart allowsSpace none false prologue =
      ⟨Piece.textOf prologuePieces, some '\x7b', true⟩ := by decide
  rw [respace_eq, spaceOut_append, hprologue]

/-- Canonical spacing leaves the tokens of a header. -/
theorem respace_header (fs : List StringField) :
    respace (header fs) = Piece.textOf (headerPieces (fs.map squeezed)) := by
  rw [header, respace_prologue, spaceOut_lines fs (Or.inl rfl), headerPieces, ← Piece.textOf_append]

/-- What normalization leaves of a header whose contents are contained. -/
theorem exists_normalize_eq_textOf (hfs : ∀ f ∈ fs, Contained f) :
    ∃ gs : List StringField, gs.map name = fs.map name ∧
      normalize (header fs) = .ok (Piece.textOf (headerPieces gs)) := by
  obtain ⟨gs, hnames, hnormal⟩ := exists_normalize_header hfs
  refine ⟨gs.map squeezed, ?_, by rw [hnormal, respace_header]⟩
  rw [List.map_map, ← hnames]
  rfl

end StringField

end HeaderReflection
