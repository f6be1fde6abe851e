/-
  HeaderReflection.Declaration

  What a header declares for reflection: marked structs with their fields and
  marked enums with their cases.
-/
import HeaderReflection.Text

namespace HeaderReflection

/-- A marked struct or class. -/
structure StructDecl where
  name : Text
  /-- The names of the namespaces around it, joined by colons; empty outside of any. -/
  qualifier : Text
  /-- The marked fields in the order of the body. -/
  fields : List Text
  deriving DecidableEq, Repr

/-- A marked enum class. -/
structure EnumDecl where
  name : Text
  /-- The names of the namespaces around it, joined by colons; empty outside of any. -/
  qualifier : Text
  /-- All cases in the order of the body. -/
  cases : List Text
  deriving DecidableEq, Repr

/-- What one header declares. -/
structure Extraction where
  structs : List StructDecl
  enums : List EnumDecl
  deriving DecidableEq, Repr

/-- The name behind its qualifier, if there is one. -/
def qualify (qualifier name : Text) : Text :=
  if qualifier.isEmpty then name else qualifier ++ "::".toList ++ name

/-- The struct's name with the namespaces around it. -/
def StructDecl.qualifiedName (d : StructDecl) : Text :=
  qualify d.qualifier d.name

/-- The enum's name with the namespaces around it. -/
def EnumDecl.qualifiedName (d : EnumDecl) : Text :=
  qualify d.qualifier d.name

namespace Extraction

/-- Is nothing marked in the header? -/
def isEmpty (e : Extraction) : Bool :=
  e.structs.isEmpty && e.enums.isEmpty

/-- The qualified names of the structs and then of the enums. -/
def qualifiedNames (e : Extraction) : List Text :=
  e.structs.map (·.qualifiedName) ++ e.enums.map (·.qualifiedName)

end Extraction

end HeaderReflection
