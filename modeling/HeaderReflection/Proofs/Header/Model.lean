/-
  HeaderReflection.Proofs.Header.Model

  Headers as trees: namespaces, structs and enums with what stands in them, the
  symbols that they are printed as, and what a reader should find in them.
-/
import HeaderReflection.Declaration
import HeaderReflection.Proofs.Spelling

namespace HeaderReflection

/-! ## Names -/

/-- The words with a meaning of their own in a header: keywords of the language and markers. -/
inductive Keyword
  | namespaceWord | usingWord | struct | classWord | enum | final | reflect | reflectStruct
  | reflectEnum
  deriving DecidableEq

namespace Keyword

/-- How a keyword is spelled. -/
def text : Keyword → Text
  | .namespaceWord => "namespace".toList
  | usingWord => "using".toList
  | struct => "struct".toList
  | .classWord => "class".toList
  | enum => "enum".toList
  | final => "final".toList
  | reflect => "REFLECT".toList
  | reflectStruct => "REFLECT_STRUCT".toList
  | reflectEnum => "REFLECT_ENUM".toList

/-- A keyword as a word: it starts with a letter and has no other characters than a word may have. -/
def word (k : Keyword) : Word :=
  ⟨k.text, by cases k <;> decide, by cases k <;> decide⟩

/-- A keyword as a token. -/
def symbol (k : Keyword) : Symbol :=
  .word k.word

/-- The keywords that are no names. -/
def reserved : List Keyword :=
  [.namespaceWord, struct, .classWord, enum, final, reflect, reflectStruct, reflectEnum]

end Keyword

/-- A word that is no reserved keyword. -/
structure Name extends Word where
  unreserved : ∀ k ∈ Keyword.reserved, text ≠ k.text

/-- The name with the given spelling. -/
def Name.ofText (text : Text) (h : text.head?.any Char.isAlpha ∧ text.all isWordChar ∧
    ∀ k ∈ Keyword.reserved, text ≠ k.text) : Name :=
  ⟨⟨text, h.1, h.2.1⟩, h.2.2⟩

/-- A name as a token. -/
def Name.symbol (n : Name) : Symbol :=
  .word n.toWord

/-- A name with the parts before its last one. -/
structure QualifiedName where
  first : Name
  rest : List Name

namespace QualifiedName

/-- A qualified name as tokens, with two colons before every part but the first. -/
def symbols (q : QualifiedName) : List Symbol :=
  q.first.symbol :: q.rest.flatMap fun n => [.colons, n.symbol]

/-- How a qualified name is written where it is reported. -/
def text (q : QualifiedName) : Text :=
  Text.joinWith "::".toList (q.first.text :: q.rest.map (·.text))

end QualifiedName

/-! ## Declarations -/

/-- Where the marker of a declaration stands. -/
inductive Marking
  | unmarked
  | beforeKeyword
  | behindKeyword
  deriving DecidableEq

/-- The symbols of a declaration up to its name. -/
def Marking.symbols (marker : Keyword) (keywords : List Keyword) (n : Name) : Marking → List Symbol
  | unmarked => keywords.map (·.symbol) ++ [n.symbol]
  | beforeKeyword => marker.symbol :: (keywords.map (·.symbol) ++ [n.symbol])
  | behindKeyword => keywords.map (·.symbol) ++ [marker.symbol, n.symbol]

/-- A struct or a class before its body. -/
structure StructHead where
  marking : Marking
  isClass : Bool
  name : Name

/-- A struct or a class up to its name. -/
def StructHead.symbols (h : StructHead) : List Symbol :=
  h.marking.symbols .reflectStruct [if h.isClass then .classWord else .struct] h.name

/-- An enum before its body. Only an enum class can be marked. -/
inductive EnumHead
  | plain (name : Name)
  | enumClass (marking : Marking) (name : Name)

/-- Where the marker of an enum stands; a plain enum has none. -/
def EnumHead.marking : EnumHead → Marking
  | plain _ => .unmarked
  | enumClass marking _ => marking

/-- The name of an enum. -/
def EnumHead.name : EnumHead → Name
  | plain n => n
  | enumClass _ n => n

/-- The keywords that an enum starts with. -/
def EnumHead.keywords : EnumHead → List Keyword
  | plain _ => [.enum]
  | enumClass _ _ => [.enum, .classWord]

/-- An enum up to its name. -/
def EnumHead.symbols (h : EnumHead) : List Symbol :=
  h.marking.symbols .reflectEnum h.keywords h.name

/-- Statements that declare nothing: `using namespace p;` and `namespace x = p;`. -/
inductive Noise
  | usingNamespace (q : QualifiedName)
  | namespaceAlias (n : Name) (q : QualifiedName)

/-- A statement that declares nothing, with its semicolon. -/
def Noise.symbols : Noise → List Symbol
  | usingNamespace q =>
      Keyword.usingWord.symbol :: Keyword.namespaceWord.symbol :: (q.symbols ++ [.mark .semicolon])
  | namespaceAlias n q =>
      Keyword.namespaceWord.symbol :: n.symbol :: .mark .equals :: (q.symbols ++ [.mark .semicolon])

/-! ## Headers -/

/-- What stands in a header or in a body, one item and then the rest. -/
inductive Items
  | nil
  | scope (name : Option QualifiedName) (body rest : Items)
  | noise (n : Noise) (rest : Items)
  /-- A field with the given type: `T REFLECT(f);`. -/
  | field (type : QualifiedName) (name : Name) (rest : Items)
  | struct (head : StructHead) (body rest : Items)
  | enum (head : EnumHead) (cases : List Name) (rest : Items)

/-- The cases of an enum, with commas between them. -/
def caseSymbols : List Name → List Symbol
  | [] => []
  | [n] => [n.symbol]
  | n :: m :: rest => n.symbol :: .mark .comma :: caseSymbols (m :: rest)

namespace Items

/-- The symbols before the body of a namespace. -/
def scopeHead (name : Option QualifiedName) : List Symbol :=
  Keyword.namespaceWord.symbol :: name.elim [] (·.symbols)

/-- A field with its type and the marker around its name. -/
def fieldSymbols (type : QualifiedName) (name : Name) : List Symbol :=
  type.symbols ++ [Keyword.reflect.symbol, .mark .openParen, name.symbol, .mark .closeParen,
    .mark .semicolon]

/-- The printed header. -/
def symbols : Items → List Symbol
  | nil => []
  | scope name body rest =>
      scopeHead name ++ (.mark .openBrace :: (body.symbols ++ (.mark .closeBrace :: rest.symbols)))
  | noise n rest => n.symbols ++ rest.symbols
  | field type name rest => fieldSymbols type name ++ rest.symbols
  | struct head body rest =>
      head.symbols ++ (.mark .openBrace ::
        (body.symbols ++ (.mark .closeBrace :: .mark .semicolon :: rest.symbols)))
  | enum head cases rest =>
      head.symbols ++ (.mark .openBrace ::
        (caseSymbols cases ++ (.mark .closeBrace :: .mark .semicolon :: rest.symbols)))

/-! ## What a header declares -/

/-- Visits the structs, enums and fields in the order of the text and joins what they give. A struct
or an enum is visited with the names of the namespaces around it, the outermost first. -/
def visit {α : Type} (onStruct : List Text → StructHead → Items → List α)
    (onEnum : List Text → EnumHead → List Name → List α) (onField : Name → List α)
    (around : List Text) : Items → List α
  | nil => []
  | scope name body rest =>
      visit onStruct onEnum onField (around ++ (name.map (·.text)).toList) body ++
        visit onStruct onEnum onField around rest
  | noise _ rest => visit onStruct onEnum onField around rest
  | field _ name rest => onField name ++ visit onStruct onEnum onField around rest
  | struct head body rest =>
      onStruct around head body ++ (visit onStruct onEnum onField around body ++
        visit onStruct onEnum onField around rest)
  | enum head cases rest => onEnum around head cases ++ visit onStruct onEnum onField around rest

/-- The fields of a body, those of nested bodies included. -/
def fields (items : Items) : List Text :=
  items.visit (fun _ _ _ => []) (fun _ _ _ => []) (fun n => [n.text]) []

/-- What is declared by a struct with the given body: nothing if it is not marked. -/
def structDecls (around : List Text) (head : StructHead) (body : Items) : List StructDecl :=
  if head.marking = .unmarked then []
  else [⟨head.name.text, Text.joinWith "::".toList around, body.fields⟩]

/-- What is declared by an enum with the given cases: nothing if it is not marked. -/
def enumDecls (around : List Text) (head : EnumHead) (cases : List Name) : List EnumDecl :=
  if head.marking = .unmarked then []
  else [⟨head.name.text, Text.joinWith "::".toList around, cases.map (·.text)⟩]

/-- The marked structs. -/
def structs (items : Items) : List StructDecl :=
  items.visit structDecls (fun _ _ _ => []) (fun _ => []) []

/-- The marked enums. -/
def enums (items : Items) : List EnumDecl :=
  items.visit (fun _ _ _ => []) enumDecls (fun _ => []) []

end Items

end HeaderReflection
