/-
  HeaderReflection.Extraction

  Everything that a header declares for reflection, in the order of the
  markers. After a declaration has been read the search goes on inside its
  body, so that marked declarations within it are found as well.
-/
import HeaderReflection.Declaration
import HeaderReflection.Declaration.Body
import HeaderReflection.Declaration.Head
import HeaderReflection.NormalForm
import HeaderReflection.Scope
import HeaderReflection.Token.Cursor

namespace HeaderReflection

variable (s : TokenStream) (scopes : ScopeTree)

/-- The brace that closes the body opened at the given index. -/
def bodyClose (opening : Nat) : Except ParseError Nat :=
  match s.closer opening with
  | some close => .ok close
  | none => .error (.unterminatedScope (s.offset opening))

/-! ## One declaration -/

/-- The struct of the marker at the given index, and the index where its body opens. Its qualifier
is that of its name. -/
def readStruct (marker : Nat) : Except ParseError (StructDecl × Nat) := do
  let start ← DeclHead.afterKeyword s .struct marker
  let head ← DeclHead.read s .struct marker start
  let close ← bodyClose s head.body
  let fields ← collectFields s head.body close
  return (⟨head.name, scopes.qualifierAt (s.offset head.nameStart), fields⟩, head.body)

/-- The enum of the marker at the given index, and the index where its body opens. Its qualifier is
that of the marker. -/
def readEnum (marker : Nat) : Except ParseError (EnumDecl × Nat) := do
  let start ← DeclHead.afterKeyword s .enum marker
  let head ← DeclHead.read s .enum marker start
  let close ← bodyClose s head.body
  return (⟨head.name, scopes.qualifierAt (s.offset marker), collectCases s head.body close⟩,
    head.body)

/-- A reading that goes on behind the opening brace of the declaration it has read. -/
def resumeInBody {α : Type} (read : Nat → Except ParseError (α × Nat)) (marker : Nat) :
    Except ParseError (α × Nat) := do
  let (declaration, body) ← read marker
  return (declaration, body + 1)

/-! ## All declarations -/

/-- The marked structs in the order of their markers. -/
def extractStructs : Except ParseError (List StructDecl) :=
  s.cursor.collect DeclKind.struct.marker (resumeInBody (readStruct s scopes))

/-- The marked enums in the order of their markers. -/
def extractEnums : Except ParseError (List EnumDecl) :=
  s.cursor.collect DeclKind.enum.marker (resumeInBody (readEnum s scopes))

/-- The marked structs and enums. -/
def extract : Except ParseError Extraction := do
  let structs ← extractStructs s scopes
  let enums ← extractEnums s scopes
  return ⟨structs, enums⟩

/-- What a raw header declares for reflection. -/
def extractSource (raw : Text) : Except ParseError Extraction := do
  let s ← tokenize (← normalize raw)
  extract s (ScopeTree.build s)

end HeaderReflection
