/-
  HeaderReflection.Text

  Text as a list of characters, measured and cut in bytes of its UTF-8 form.
  Every position that the library reports is such a byte offset.
-/

namespace HeaderReflection

/-- A text is the list of its characters, so that a pass over it is a recursion on the list. -/
abbrev Text := List Char

namespace Text

/-! ## Size in bytes -/

/-- Number of bytes of the UTF-8 form. -/
def size : Text → Nat
  | [] => 0
  | c :: r => c.utf8Size + size r

@[simp] theorem size_nil : size [] = 0 := rfl

@[simp] theorem size_cons (c : Char) (r : Text) : size (c :: r) = c.utf8Size + size r := rfl

@[simp] theorem size_append (s t : Text) : size (s ++ t) = size s + size t := by
  induction s with
  | nil => simp
  | cons c r ih => simp [ih, Nat.add_assoc]

/-! ## Byte slices

A cut that falls inside a character moves to the end of that character. -/

/-- The text from byte `n` on. -/
def fromByte : Nat → Text → Text
  | 0, s => s
  | _ + 1, [] => []
  | n + 1, c :: r => fromByte (n + 1 - c.utf8Size) r

/-- The first `n` bytes of the text. -/
def uptoByte : Nat → Text → Text
  | 0, _ => []
  | _ + 1, [] => []
  | n + 1, c :: r => c :: uptoByte (n + 1 - c.utf8Size) r

/-- The bytes from `start` up to but not including `stop`. -/
def slice (start stop : Nat) (s : Text) : Text :=
  uptoByte (stop - start) (fromByte start s)

/-! ## Joining and ends -/

/-- The parts with `sep` between each two of them. -/
def joinWith (sep : Text) (parts : List Text) : Text :=
  List.intercalate sep parts

/-- What stands before `ending`, if the text ends with it. -/
def dropEnding? (ending s : Text) : Option Text :=
  if ending.isSuffixOf s then some (s.take (s.length - ending.length)) else none

/-! ## Bytes -/

/-- The UTF-8 form as a list of bytes. -/
def bytes (s : Text) : List UInt8 :=
  s.flatMap String.utf8EncodeChar

/-- The UTF-8 form as file contents. -/
def encode (s : Text) : ByteArray :=
  (String.ofList s).toUTF8

/-- Reads file contents; none if they are not valid UTF-8. -/
def decode? (b : ByteArray) : Option Text :=
  (String.fromUTF8? b).map String.toList

end Text

end HeaderReflection
