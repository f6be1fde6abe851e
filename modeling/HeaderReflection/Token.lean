/-
  HeaderReflection.Token

  The tokens of a header and how they are cut from its text: blanks separate
  tokens and are dropped, and every other character belongs to exactly one
  token. A token keeps its text and the byte at which it starts.
-/
import HeaderReflection.Text.Alphanumeric
import HeaderReflection.Text.Blank

namespace HeaderReflection

/-! ## Tokens -/

/-- What a token is. -/
inductive TokenKind
  /-- A run of word characters: an identifier, a keyword or a number. -/
  | ident
  /-- The two colons between the parts of a qualified name. -/
  | separator
  /-- A string or character literal, quotes included. -/
  | literal
  /-- Any other character. -/
  | punct (c : Char)
  deriving DecidableEq, Repr

/-- A token with its place in the text. -/
structure Token where
  kind : TokenKind
  /-- Byte offset of the first character. -/
  start : Nat
  /-- The characters of the token. -/
  lexeme : Text
  deriving DecidableEq, Repr

namespace Token

/-- Byte offset of what follows the token. -/
def stop (t : Token) : Nat :=
  t.start + t.lexeme.size

/-- Is the token the punctuation `c`? -/
def isPunct (t : Token) (c : Char) : Bool :=
  t.kind == .punct c

/-- Is the token an identifier? -/
def isIdent (t : Token) : Bool :=
  t.kind == .ident

/-! ## The end of a token -/

/-- Splits off the rest of an identifier. In a number a quote goes on with it if an ASCII letter or
digit follows. -/
def identTail (numeric : Bool) : Text → Text × Text
  | [] => ([], [])
  | c :: r =>
    if Text.isWord c || (numeric && c == '\'' && r.head?.any Text.isAsciiAlphanumeric) then
      (c :: (identTail numeric r).1, (identTail numeric r).2)
    else ([], c :: r)

/-- Splits off the rest of a literal, up to its closing quote or the end of the text; a backslash
takes the next character with it. -/
def literalTail (quote : Char) (escaped : Bool) : Text → Text × Text
  | [] => ([], [])
  | c :: r =>
    if !escaped && c == quote then ([c], r)
    else
      let tail := literalTail quote (!escaped && c == '\\') r
      (c :: tail.1, tail.2)

/-- The first token of a text that starts with the non-blank character `c`: its kind, its characters
after `c`, and the text after it. -/
def cut (c : Char) (r : Text) : TokenKind × Text × Text :=
  if Text.isWord c then (.ident, identTail c.isDigit r)
  else if c == '"' || c == '\'' then (.literal, literalTail c false r)
  else if c == ':' && r.head? == some ':' then (.separator, r.take 1, r.drop 1)
  else (.punct c, [], r)

theorem identTail_append (numeric : Bool) (s : Text) :
    (identTail numeric s).1 ++ (identTail numeric s).2 = s := by
  induction s with
  | nil => rfl
  | cons c r ih => rw [identTail]; split <;> simp [ih]

theorem literalTail_append (quote : Char) (escaped : Bool) (s : Text) :
    (literalTail quote escaped s).1 ++ (literalTail quote escaped s).2 = s := by
  induction s generalizing escaped with
  | nil => rfl
  | cons c r ih => rw [literalTail]; split <;> simp [ih]

/-- A cut loses nothing. -/
theorem cut_append (c : Char) (r : Text) : (cut c r).2.1 ++ (cut c r).2.2 = r := by
  unfold cut
  split
  · exact identTail_append _ _
  split
  · exact literalTail_append _ _ _
  split
  · exact List.take_append_drop 1 r
  · rfl

/-- What follows the first token is no longer than what follows its first character. -/
theorem length_cut_le (c : Char) (r : Text) : (cut c r).2.2.length ≤ r.length := by
  have h := congrArg List.length (cut_append c r)
  rw [List.length_append] at h
  omega

/-! ## All tokens -/

/-- The tokens of a text that starts at byte `start`. -/
def scanFrom (start : Nat) : Text → List Token
  | [] => []
  | c :: r =>
    if Text.isBlank c then scanFrom (start + c.utf8Size) r
    else
      let lexeme := c :: (cut c r).2.1
      ⟨(cut c r).1, start, lexeme⟩ :: scanFrom (start + Text.size lexeme) (cut c r).2.2
termination_by s => s.length
decreasing_by
  · simp
  · have := length_cut_le c r
    simp only [List.length_cons]
    omega

/-- The tokens of a text. -/
def scan (s : Text) : List Token :=
  scanFrom 0 s

end Token

end HeaderReflection
