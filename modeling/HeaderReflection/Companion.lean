/-
  HeaderReflection.Companion

  The text of a companion header: a banner, then one block of macro calls for
  each marked struct and for each marked enum.
-/
import HeaderReflection.Declaration

namespace HeaderReflection.Companion

/-! ## Lines -/

/-- The lines that open every companion header. -/
def banner : Text :=
  ("// -----------------------------------------------------------\n" ++
    "// automatically generated with reflectgen\n" ++
    "// don't edit this file directly.\n" ++
    "// -----------------------------------------------------------\n\n").toList

/-- A line that calls a macro with one argument, `indent` before it. -/
def call (indent macroName : String) (argument : Text) : Text :=
  indent.toList ++ macroName.toList ++ '(' :: argument ++ [')', '\n']

/-- A line that calls a macro without an argument, and an empty line. -/
def endOfBlock (macroName : String) : Text :=
  macroName.toList ++ ['\n', '\n']

/-! ## Blocks -/

/-- The block of a struct: its name, and a line for each field. -/
def structBlock (d : StructDecl) : Text :=
  call "" "REFLECT_IMPL_STRUCT_BEGIN" d.qualifiedName
    ++ d.fields.flatMap (call "    " "REFLECT_IMPL_FIELD")
    ++ endOfBlock "REFLECT_IMPL_STRUCT_END"

/-- The cases of an enum that are no sentinels. -/
def reflectedCases (sentinels : List Text) (d : EnumDecl) : List Text :=
  d.cases.filter fun c => !sentinels.contains c

/-- The block of an enum: its name, and a line for each case that is no sentinel. -/
def enumBlock (sentinels : List Text) (d : EnumDecl) : Text :=
  call "" "REFLECT_IMPL_ENUM_BEGIN" d.qualifiedName
    ++ (reflectedCases sentinels d).flatMap (call "    " "REFLECT_IMPL_CASE")
    ++ endOfBlock "REFLECT_IMPL_ENUM_END"

/-! ## The file -/

/-- The blocks of all structs. -/
def structBlocks (ds : List StructDecl) : Text :=
  ds.flatMap structBlock

/-- The blocks of all enums. -/
def enumBlocks (sentinels : List Text) (ds : List EnumDecl) : Text :=
  ds.flatMap (enumBlock sentinels)

/-- All blocks, the structs before the enums. -/
def blocks (sentinels : List Text) (e : Extraction) : Text :=
  structBlocks e.structs ++ enumBlocks sentinels e.enums

/-- The whole companion header. -/
def render (sentinels : List Text) (e : Extraction) : Text :=
  banner ++ blocks sentinels e

/-- The cases that are sentinels unless a configuration says otherwise. -/
def defaultSentinels : List Text :=
  ["Invalid".toList, "Count".toList]

end HeaderReflection.Companion
