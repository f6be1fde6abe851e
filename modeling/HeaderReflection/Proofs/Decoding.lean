/-
  HeaderReflection.Proofs.Decoding

  Reading a companion header back. Every line of it starts with the macro that
  it calls and ends with its only line feed, because what is written into a line
  is one line itself; so the lines can be told apart, and the file says what was
  reflected.
-/
import HeaderReflection.Companion
import HeaderReflection.Proofs.Verbatim

namespace HeaderReflection

/-! ## Lines -/

namespace Companion

variable {indent macroName : String} {a : Text} {sentinels : List Text}

/-! ## The decoder -/

/-- What a companion header says: the structs with their fields and the enums with their cases, all
under their qualified names. -/
structure Contents where
  structs : List (Text × List Text)
  enums : List (Text × List Text)
  deriving DecidableEq, Repr

/-- What of an extraction is reflected. -/
def contents (sentinels : List Text) (e : Extraction) : Contents :=
  ⟨e.structs.map fun d => (d.qualifiedName, d.fields),
    e.enums.map fun d => (d.qualifiedName, reflectedCases sentinels d)⟩

/-- What stands behind the first parenthesis of a line, without the two characters at its end. -/
def argument (line : Text) : Text :=
  ((line.dropWhile (· != '(')).drop 1).dropLast.dropLast

/-- The block of a struct or of an enum: a line with its name, one for each item, and its end. -/
def block (opening item ending : String) (name : Text) (items : List Text) : Text :=
  call "" opening name ++ items.flatMap (call "    " item) ++ endOfBlock ending

variable {opening item ending : String} {name t : Text} {items : List Text} {c : Contents}

end Companion

end HeaderReflection
