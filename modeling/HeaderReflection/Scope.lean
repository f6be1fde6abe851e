/-
  HeaderReflection.Scope

  The namespaces of a header. Each `namespace` with a body is a node with the
  bytes of its braces and the index of the namespace around it; the nodes
  stand in the order of their keywords. The qualifier of a byte is read off
  the innermost node that holds it and its chain of parents.
-/
import HeaderReflection.Token.Stream

namespace HeaderReflection

/-! ## Nodes and ranges -/

/-- One namespace of a header. -/
structure ScopeNode where
  /-- The text between the keyword and the body: it may be qualified, or empty. -/
  name : Text
  /-- Byte offset of the opening brace. -/
  start : Nat
  /-- Byte offset of the closing brace. -/
  stop : Nat
  /-- Index of the namespace around this one. -/
  parent : Option Nat
  deriving DecidableEq, Repr

/-- A namespace's name and braces, without its place in the tree. -/
structure ScopeRange where
  name : Text
  start : Nat
  stop : Nat
  deriving DecidableEq, Repr

/-- Does the byte lie in the range? Both braces belong to it. -/
def ScopeRange.contains (r : ScopeRange) (offset : Nat) : Bool :=
  r.start ≤ offset && offset ≤ r.stop

/-- The range of a node. -/
def ScopeNode.range (n : ScopeNode) : ScopeRange :=
  ⟨n.name, n.start, n.stop⟩

/-- The namespaces of a header, in the order of their keywords. -/
structure ScopeTree where
  nodes : Array ScopeNode
  deriving DecidableEq, Repr

namespace ScopeTree

/-! ## Building -/

/-- The brace that opens the body of the `namespace` at index `i`: the first one before any
semicolon. -/
def bodyBrace (s : TokenStream) (i : Nat) : Option Nat :=
  ((s.indices (i + 1) s.size).takeWhile fun k => !s.isPunct k ';').find? (s.isPunct · '{')

/-- The braces around the body of the namespace that starts at index `i`, if one does. -/
def namespaceBody (s : TokenStream) (i : Nat) : Option (Nat × Nat) :=
  if s.isIdent i "namespace".toList then
    (bodyBrace s i).bind fun brace => (s.closer brace).map fun close => (brace, close)
  else none

/-- The nodes found so far, and of each namespace that is still open the index of its closing token
and of its node, the innermost first. -/
structure Progress where
  nodes : Array ScopeNode
  opened : List (Nat × Nat)

/-- Reads the token at index `i`: leaves the namespaces that close before it, and enters the one it
starts. -/
def Progress.read (s : TokenStream) (p : Progress) (i : Nat) : Progress :=
  let opened := p.opened.dropWhile fun (close, _) => close < i
  -- What is still open now is around the token, and the first of it is the parent.
  match namespaceBody s i with
  | none => ⟨p.nodes, opened⟩
  | some (brace, close) =>
    let node : ScopeNode :=
      { name := (s.textBetween (i + 1) brace).trim
        start := s.offset brace
        stop := s.offset close
        parent := opened.head?.map (·.2) }
    ⟨p.nodes.push node, (close, p.nodes.size) :: opened⟩

/-- The namespaces of a token stream. -/
def build (s : TokenStream) : ScopeTree :=
  ⟨((List.range s.size).foldl (Progress.read s) ⟨#[], []⟩).nodes⟩

/-! ## Reading -/

variable (t : ScopeTree)

/-- The ranges of all namespaces in the order of their keywords. -/
def ranges : List ScopeRange :=
  t.nodes.toList.map (·.range)

/-- Index of the last namespace that holds the byte. -/
def innermost (offset : Nat) : Option Nat :=
  (List.range t.nodes.size).reverse.find? fun i =>
    (t.nodes[i]?).any fun n => n.range.contains offset

/-- The chain of namespaces from the one at `i` outwards, of at most `bound` links. -/
def chain (bound : Nat) (i : Option Nat) : List ScopeNode :=
  match bound with
  | 0 => []
  | bound + 1 =>
    match i.bind (t.nodes[·]?) with
    | none => []
    | some n => n :: chain bound n.parent

/-- The names of the namespaces around the byte, the outermost first and joined by colons. A
namespace without a name adds nothing. No chain is longer than the list of nodes, because every
parent stands before its child. -/
def qualifierAt (offset : Nat) : Text :=
  let names := (t.chain t.nodes.size (t.innermost offset)).map (·.name)
  Text.joinWith "::".toList (names.filter (!·.isEmpty)).reverse

end ScopeTree

end HeaderReflection
