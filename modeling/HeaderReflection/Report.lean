/-
  HeaderReflection.Report

  Outcomes as JSON values.
-/
import HeaderReflection.Generation
import HeaderReflection.Json

namespace HeaderReflection

/-- An array of strings. -/
def Json.ofTexts (l : List Text) : Json :=
  .array (l.map .string)

/-- An object, from names that are listed in order. -/
def Json.ofMembers (members : List (String × Json)) : Json :=
  .object (members.map fun (name, v) => (name.toList, v))

/-- A struct as a JSON value. -/
def StructDecl.toJson (d : StructDecl) : Json :=
  .ofMembers [("fields", .ofTexts d.fields), ("name", .string d.name),
    ("qualifier", .string d.qualifier)]

/-- An enum as a JSON value. -/
def EnumDecl.toJson (d : EnumDecl) : Json :=
  .ofMembers [("cases", .ofTexts d.cases), ("name", .string d.name),
    ("qualifier", .string d.qualifier)]

/-- An outcome as a JSON value. -/
def Outcome.toJson : Outcome → Json
  | .generated input output extraction =>
    .ofMembers [("enums", .array (extraction.enums.map (·.toJson))), ("input", .string input),
      ("output", .string output), ("status", .string "generated".toList),
      ("structs", .array (extraction.structs.map (·.toJson)))]
  | .skipped input => .ofMembers [("input", .string input), ("status", .string "skipped".toList)]

/-- The preview of a header as a JSON value. -/
def Json.ofPreview (input : Path) (text : Option Text) : Json :=
  .ofMembers [("input", .string input),
    ("text", match text with
      | some text => .string text
      | none => .null)]

end HeaderReflection
