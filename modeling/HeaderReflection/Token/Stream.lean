/-
  HeaderReflection.Token.Stream

  The tokens of a text with their braces paired, looked up by index. An index
  past the last token stands for the end of the text.
-/
import HeaderReflection.Token.Braces

namespace HeaderReflection

/-- A text cut into tokens. -/
structure TokenStream where
  source : Text
  tokens : Array Token
  /-- The indices of each opening brace and of the brace that closes it. -/
  bracePairs : List (Nat × Nat)
  deriving Repr

/-- Cuts a text into tokens and pairs its braces. -/
def tokenize (source : Text) : Except ParseError TokenStream := do
  let tokens := Token.scan source
  let bracePairs ← pairBraces tokens
  return ⟨source, tokens.toArray, bracePairs⟩

namespace TokenStream

variable (s : TokenStream)

/-! ## Look-up by index -/

/-- Number of tokens. -/
def size : Nat :=
  s.tokens.size

/-- Are there no tokens? -/
def isEmpty : Bool :=
  s.tokens.isEmpty

/-- The token at index `i`. -/
def token? (i : Nat) : Option Token :=
  s.tokens[i]?

/-- Byte offset at which token `i` starts. -/
def offset (i : Nat) : Nat :=
  match s.token? i with
  | some t => t.start
  | none => s.source.size

/-- The characters of token `i`. -/
def text (i : Nat) : Text :=
  match s.token? i with
  | some t => t.lexeme
  | none => []

/-- The text from the start of token `i` to the start of token `j`, blanks included. -/
def textBetween (i j : Nat) : Text :=
  s.source.slice (s.offset i) (s.offset j)

/-! ## Tests -/

/-- Is token `i` an identifier? -/
def isWord (i : Nat) : Bool :=
  (s.token? i).any (·.isIdent)

/-- Is token `i` the identifier `name`? -/
def isIdent (i : Nat) (name : Text) : Bool :=
  (s.token? i).any fun t => t.isIdent && t.lexeme == name

/-- Is token `i` the punctuation `c`? -/
def isPunct (i : Nat) (c : Char) : Bool :=
  (s.token? i).any (·.isPunct c)

/-- Is token `i` the two colons of a qualified name? -/
def isSeparator (i : Nat) : Bool :=
  (s.token? i).any (·.kind == .separator)

/-- Index of the brace that closes the one at index `i`. -/
def closer (i : Nat) : Option Nat :=
  (s.bracePairs.find? (·.1 == i)).map (·.2)

/-! ## Search -/

/-- The indices of tokens from `i` up to but not including `j`. -/
def indices (i j : Nat) : List Nat :=
  List.range' i (min j s.size - i)

/-- The first index from `i` up to but not including `j` that holds the identifier `name`. -/
def findIdent (i j : Nat) (name : Text) : Option Nat :=
  (s.indices i j).find? (s.isIdent · name)

/-- The first index from `i` up to but not including `j` that holds the punctuation `c`. -/
def findPunct (i j : Nat) (c : Char) : Option Nat :=
  (s.indices i j).find? (s.isPunct · c)

variable {s}

theorem mem_indices {i j k : Nat} : k ∈ s.indices i j ↔ i ≤ k ∧ k < j ∧ k < s.size := by
  simp only [indices, List.mem_range'_1]
  omega

theorem findIdent_bounds {i j k : Nat} {name : Text} (h : s.findIdent i j name = some k) :
    i ≤ k ∧ k < j ∧ k < s.size :=
  mem_indices.1 (List.mem_of_find?_eq_some h)

theorem findPunct_bounds {i j k : Nat} {c : Char} (h : s.findPunct i j c = some k) :
    i ≤ k ∧ k < j ∧ k < s.size :=
  mem_indices.1 (List.mem_of_find?_eq_some h)

end TokenStream

end HeaderReflection
