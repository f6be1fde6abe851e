/-
  HeaderReflection.Proofs.JsonReading

  A reader of JSON texts, which knows nothing of how a value is laid out: blanks
  may stand between any two tokens, and a string may escape any character. What
  is printed for a value is read as that value, so a printed text tells its value.
-/
import HeaderReflection.Json
import Mathlib.Data.List.Basic

namespace HeaderReflection.Json

/-! ## Strings -/

/-- The value of a hexadecimal digit. -/
def hexValue? (c : Char) : Option Nat :=
  if '0' ≤ c && c ≤ '9' then some (c.toNat - '0'.toNat)
  else if 'a' ≤ c && c ≤ 'f' then some (c.toNat - 'a'.toNat + 10)
  else if 'A' ≤ c && c ≤ 'F' then some (c.toNat - 'A'.toNat + 10)
  else none

/-- The character whose number is written with four hexadecimal digits. The halves of a surrogate pair
are none. -/
def codeChar? (digits : List Char) : Option Char := do
  let values ← digits.mapM hexValue?
  let code := values.foldl (fun code value => 16 * code + value) 0
  if code.isValidChar then some (Char.ofNat code) else none

/-- What a character behind a backslash stands for. -/
def unescape? : Char → Option Char
  | '"' => some '"'
  | '\\' => some '\\'
  | '/' => some '/'
  | 'b' => some '\x08'
  | 'f' => some '\x0c'
  | 'n' => some '\n'
  | 'r' => some '\r'
  | 't' => some '\t'
  | _ => none

/-- The text of a string, from behind its opening quote, and what stands behind the closing one. -/
def readString : Text → Option (Text × Text)
  | [] => none
  | '"' :: r => some ([], r)
  | '\\' :: 'u' :: a :: b :: c :: d :: r => do
    let e ← codeChar? [a, b, c, d]
    let (s, r) ← readString r
    return (e :: s, r)
  | '\\' :: c :: r => do
    let e ← unescape? c
    let (s, r) ← readString r
    return (e :: s, r)
  | c :: r =>
    if c == '\\' || c.toNat < 0x20 then none
    else do
      let (s, r) ← readString r
      return (c :: s, r)

/-! ## Values -/

/-- Does the character say nothing between two tokens? -/
def isBlank (c : Char) : Bool :=
  c == ' ' || c == '\n' || c == '\r' || c == '\t'

/-- The text from its first token on. -/
def skipBlanks (s : Text) : Text :=
  s.dropWhile isBlank

mutual

/-- A value at the front of the text, and what stands behind it. The way to any part of it goes by at
most `bound` values and members. -/
def readValue : Nat → Text → Option (Json × Text)
  | 0, _ => none
  | bound + 1, s =>
    match skipBlanks s with
    | 'n' :: 'u' :: 'l' :: 'l' :: r => some (null, r)
    | '"' :: r => (readString r).map fun (s, r) => (string s, r)
    | '[' :: r =>
      match skipBlanks r with
      | ']' :: r => some (array [], r)
      | _ => do
        let (v, r) ← readValue bound r
        let (vs, r) ← readItems bound r
        return (array (v :: vs), r)
    | '\x7b' :: r =>
      match skipBlanks r with
      | '\x7d' :: r => some (object [], r)
      | _ => do
        let (m, r) ← readMember bound r
        let (ms, r) ← readMembers bound r
        return (object (m :: ms), r)
    | _ => none

/-- The items of an array behind the first one, up to the closing bracket. -/
def readItems : Nat → Text → Option (List Json × Text)
  | 0, _ => none
  | bound + 1, s =>
    match skipBlanks s with
    | ']' :: r => some ([], r)
    | ',' :: r => do
      let (v, r) ← readValue bound r
      let (vs, r) ← readItems bound r
      return (v :: vs, r)
    | _ => none

/-- A member of an object: a name in quotes, a colon and a value. -/
def readMember : Nat → Text → Option ((Text × Json) × Text)
  | 0, _ => none
  | bound + 1, s =>
    match skipBlanks s with
    | '"' :: r => do
      let (k, r) ← readString r
      match skipBlanks r with
      | ':' :: r => do
        let (v, r) ← readValue bound r
        return ((k, v), r)
      | _ => none
    | _ => none

/-- The members of an object behind the first one, up to the closing brace. -/
def readMembers : Nat → Text → Option (List (Text × Json) × Text)
  | 0, _ => none
  | bound + 1, s =>
    match skipBlanks s with
    | '\x7d' :: r => some ([], r)
    | ',' :: r => do
      let (m, r) ← readMember bound r
      let (ms, r) ← readMembers bound r
      return (m :: ms, r)
    | _ => none

end

/-- The value that a text is. Nothing but blanks may stand behind it. -/
def read? (s : Text) : Option Json :=
  match readValue (s.length + 1) s with
  | some (v, r) => if (skipBlanks r).isEmpty then some v else none
  | none => none

variable {r s : Text} {c : Char} {level bound : Nat} {v : Json}

/-! ## Strings that are printed -/

theorem readString_of_plain (hquote : c ≠ '"') (hslash : c ≠ '\\') (hcontrol : ¬ c.toNat < 0x20) :
    readString (c :: r) = (readString r).map fun (s, r) => (c :: s, r) := by
  rw [readString.eq_def]
  split
  · simp_all
  · simp_all
  · simp_all
  · simp_all
  · next heq =>
    obtain ⟨rfl, rfl⟩ := List.cons.inj heq
    rw [if_neg (by simp [hslash, hcontrol])]
    cases readString r <;> rfl

theorem readString_of_escape {e : Char} (hc : c ≠ 'u') (he : unescape? c = some e) :
    readString ('\\' :: c :: r) = (readString r).map fun (s, r) => (e :: s, r) := by
  rw [readString, he]
  · cases readString r <;> rfl
  · intro _ _ _ _ _ hu
    exact absurd hu hc

theorem readString_of_code {a b d e : Char} (he : codeChar? [a, b, c, d] = some e) :
    readString ('\\' :: 'u' :: a :: b :: c :: d :: r) =
      (readString r).map fun (s, r) => (e :: s, r) := by
  rw [readString, he]
  cases readString r <;> rfl

/-- A control character is read as it is written in hexadecimal digits. -/
theorem codeChar?_hexDigit (h : c.toNat < 0x20) :
    codeChar? ['0', '0', hexDigit (c.toNat / 16), hexDigit (c.toNat % 16)] = some c := by
  have hall : ∀ n < 0x20, codeChar? ['0', '0', hexDigit (n / 16), hexDigit (n % 16)] =
      some (Char.ofNat n) := by decide
  rw [hall c.toNat h, Char.ofNat_toNat]

/-- A character is read as it is printed, escaped or not. -/
theorem readString_escapeChar (c : Char) (r : Text) :
    readString (escapeChar c ++ r) = (readString r).map fun (s, r) => (c :: s, r) := by
  simp only [escapeChar, beq_iff_eq]
  split_ifs with hquote hslash hfeed hreturn htab hback hform hcontrol
  · subst hquote
    exact readString_of_escape (by decide) rfl
  · subst hslash
    exact readString_of_escape (by decide) rfl
  · subst hfeed
    exact readString_of_escape (by decide) rfl
  · subst hreturn
    exact readString_of_escape (by decide) rfl
  · subst htab
    exact readString_of_escape (by decide) rfl
  · subst hback
    exact readString_of_escape (by decide) rfl
  · subst hform
    exact readString_of_escape (by decide) rfl
  · exact readString_of_code (codeChar?_hexDigit hcontrol)
  · exact readString_of_plain hquote hslash hcontrol

/-- A string is read as it is printed, whatever stands behind its closing quote. -/
theorem readString_escaped (s r : Text) :
    readString (s.flatMap escapeChar ++ '"' :: r) = some (s, r) := by
  induction s with
  | nil => rfl
  | cons c s ih => rw [List.flatMap_cons, List.append_assoc, readString_escapeChar, ih, Option.map_some]

/-! ## Values that are printed -/

theorem skipBlanks_of_blank (h : isBlank c) : skipBlanks (c :: r) = skipBlanks r :=
  List.dropWhile_cons_of_pos h

theorem skipBlanks_of_not_blank (h : ¬ isBlank c) : skipBlanks (c :: r) = c :: r :=
  List.dropWhile_cons_of_neg h

/-- A line break and the indentation behind it say nothing. -/
theorem skipBlanks_newLine (level : Nat) (r : Text) :
    skipBlanks (newLine level ++ r) = skipBlanks r := by
  have hspaces : ∀ n, skipBlanks (List.replicate n ' ' ++ r) = skipBlanks r := by
    intro n
    induction n with
    | zero => rfl
    | succ n ih => exact (skipBlanks_of_blank rfl).trans ih
  exact (skipBlanks_of_blank rfl).trans (hspaces _)

/-- Blanks in front of a value make no difference. -/
theorem readValue_congr (h : skipBlanks r = skipBlanks s) : readValue bound r = readValue bound s := by
  cases bound with
  | zero => rfl
  | succ bound => rw [readValue, readValue, h]

theorem readMember_congr (h : skipBlanks r = skipBlanks s) :
    readMember bound r = readMember bound s := by
  cases bound with
  | zero => rfl
  | succ bound => rw [readMember, readMember, h]

/-- A printed value begins with its first token, which closes no array. -/
theorem exists_cons_of_pretty (level : Nat) (v : Json) :
    ∃ c s, pretty level v = c :: s ∧ ¬ isBlank c ∧ c ≠ ']' := by
  match v with
  | null => exact ⟨'n', _, rfl, by decide, by decide⟩
  | string s => exact ⟨'"', _, rfl, by decide, by decide⟩
  | array [] => exact ⟨'[', _, rfl, by decide, by decide⟩
  | array (v :: vs) => exact ⟨'[', _, by rw [pretty]; rfl, by decide, by decide⟩
  | object [] => exact ⟨'\x7b', _, rfl, by decide, by decide⟩
  | object ((k, v) :: ms) => exact ⟨'\x7b', _, by rw [pretty]; rfl, by decide, by decide⟩

theorem skipBlanks_pretty (n level : Nat) (v : Json) (r : Text) :
    skipBlanks (newLine n ++ (pretty level v ++ r)) = pretty level v ++ r ∧
      ∀ s, pretty level v ++ r ≠ ']' :: s := by
  obtain ⟨c, s, hs, hblank, hclose⟩ := exists_cons_of_pretty level v
  rw [skipBlanks_newLine, hs, List.cons_append]
  exact ⟨skipBlanks_of_not_blank hblank, fun s h => hclose (List.cons.inj h).1⟩

/-- An array that is not empty is read item by item. -/
theorem readValue_array (h : ∀ s, skipBlanks r ≠ ']' :: s) :
    readValue (bound + 1) ('[' :: r) = do
      let (v, r) ← readValue bound r
      let (vs, r) ← readItems bound r
      return (array (v :: vs), r) := by
  rw [readValue, skipBlanks_of_not_blank (by decide)]
  show (match skipBlanks r with
    | ']' :: r => some (array [], r)
    | _ => _) = _
  split
  · next hclose => exact absurd hclose (h _)
  · rfl

/-- An object that is not empty is read member by member. -/
theorem readValue_object (h : ∀ s, skipBlanks r ≠ '\x7d' :: s) :
    readValue (bound + 1) ('\x7b' :: r) = do
      let (m, r) ← readMember bound r
      let (ms, r) ← readMembers bound r
      return (object (m :: ms), r) := by
  rw [readValue, skipBlanks_of_not_blank (by decide)]
  show (match skipBlanks r with
    | '\x7d' :: r => some (object [], r)
    | _ => _) = _
  split
  · next hclose => exact absurd hclose (h _)
  · rfl

/-- A member is read as it is printed, if its value is. -/
theorem readMember_of_value {k : Text} (h : readValue bound (pretty level v ++ r) = some (v, r)) :
    readMember (bound + 1) (quoted k ++ ([':', ' '] ++ (pretty level v ++ r))) = some ((k, v), r) := by
  have hspace : readValue bound (' ' :: (pretty level v ++ r)) = some (v, r) :=
    (readValue_congr (skipBlanks_of_blank rfl)).trans h
  have hquoted : quoted k ++ ([':', ' '] ++ (pretty level v ++ r)) =
      '"' :: (k.flatMap escapeChar ++ '"' :: ':' :: ' ' :: (pretty level v ++ r)) := by
    simp [quoted]
  rw [hquoted, readMember, skipBlanks_of_not_blank (by decide)]
  show (readString _ >>= fun p => _) = _
  rw [readString_escaped]
  show (readValue bound (' ' :: (pretty level v ++ r)) >>= fun p => _) = _
  rw [hspace]
  rfl

mutual

/-- A value is read as it is printed, whatever stands behind it. -/
theorem readValue_pretty (v : Json) (level bound : Nat) (r : Text)
    (hbound : (pretty level v).length ≤ bound) :
    readValue bound (pretty level v ++ r) = some (v, r) := by
  obtain ⟨bound, rfl⟩ : ∃ d, bound = d + 1 := by
    obtain ⟨c, s, hs, -⟩ := exists_cons_of_pretty level v
    rw [hs, List.length_cons] at hbound
    exact ⟨bound - 1, by omega⟩
  match v with
  | null => rfl
  | string s =>
      have hquoted : pretty level (string s) ++ r = '"' :: (s.flatMap escapeChar ++ '"' :: r) := by
        simp [pretty, quoted]
      rw [hquoted, readValue, skipBlanks_of_not_blank (by decide)]
      show (readString _).map _ = _
      rw [readString_escaped]
      rfl
  | array [] => rfl
  | array (v :: vs) =>
      simp only [pretty, List.length_append, List.length_cons] at hbound
      have hv := readValue_pretty v (level + 1) bound
        (prettyItems (level + 1) vs ++ (newLine level ++ ']' :: r)) (by omega)
      have hvs := readItems_pretty vs (level + 1) level bound r (by omega)
      obtain ⟨hskip, hclose⟩ := skipBlanks_pretty (level + 1) (level + 1) v
        (prettyItems (level + 1) vs ++ (newLine level ++ ']' :: r))
      have hprinted : pretty level (array (v :: vs)) ++ r = '[' :: (newLine (level + 1) ++
          (pretty (level + 1) v ++ (prettyItems (level + 1) vs ++ (newLine level ++ ']' :: r)))) := by
        simp [pretty]
      rw [hprinted, readValue_array (fun s => by rw [hskip]; exact hclose s),
        readValue_congr (skipBlanks_newLine _ _), hv]
      show (readItems bound _ >>= fun p => _) = _
      rw [hvs]
      rfl
  | object [] => rfl
  | object ((k, v) :: ms) =>
      simp only [pretty, List.length_append, List.length_cons] at hbound
      obtain ⟨bound, rfl⟩ : ∃ d, bound = d + 1 := ⟨bound - 1, by omega⟩
      have hv := readValue_pretty v (level + 1) bound
        (prettyMembers (level + 1) ms ++ (newLine level ++ '\x7d' :: r)) (by omega)
      have hms := readMembers_pretty ms (level + 1) level (bound + 1) r (by omega)
      have hprinted : pretty level (object ((k, v) :: ms)) ++ r = '\x7b' :: (newLine (level + 1) ++
          (quoted k ++ ([':', ' '] ++ (pretty (level + 1) v ++
            (prettyMembers (level + 1) ms ++ (newLine level ++ '\x7d' :: r)))))) := by
        simp [pretty]
      rw [hprinted, readValue_object (fun s => ?_), readMember_congr (skipBlanks_newLine _ _),
        readMember_of_value hv]
      · show (readMembers (bound + 1) _ >>= fun p => _) = _
        rw [hms]
        rfl
      · rw [skipBlanks_newLine]
        simp [quoted, skipBlanks_of_not_blank (c := '"') (by decide)]

/-- The items behind the first one are read as they are printed, up to the closing bracket. -/
theorem readItems_pretty (vs : List Json) (level outer bound : Nat) (r : Text)
    (hbound : (prettyItems level vs).length < bound) :
    readItems bound (prettyItems level vs ++ (newLine outer ++ ']' :: r)) = some (vs, r) := by
  obtain ⟨bound, rfl⟩ : ∃ d, bound = d + 1 := ⟨bound - 1, by omega⟩
  match vs with
  | [] =>
      rw [prettyItems, List.nil_append, readItems, skipBlanks_newLine,
        skipBlanks_of_not_blank (by decide)]
      rfl
  | v :: vs =>
      simp only [prettyItems, List.length_append, List.length_cons] at hbound
      have hv := readValue_pretty v level bound
        (prettyItems level vs ++ (newLine outer ++ ']' :: r)) (by omega)
      have hvs := readItems_pretty vs level outer bound r (by omega)
      have hprinted : prettyItems level (v :: vs) ++ (newLine outer ++ ']' :: r) =
          ',' :: (newLine level ++
            (pretty level v ++ (prettyItems level vs ++ (newLine outer ++ ']' :: r)))) := by
        simp [prettyItems]
      rw [hprinted, readItems, skipBlanks_of_not_blank (by decide)]
      show (readValue bound (newLine level ++ _) >>= fun p => _) = _
      rw [readValue_congr (skipBlanks_newLine _ _), hv]
      show (readItems bound _ >>= fun p => _) = _
      rw [hvs]
      rfl

/-- The members behind the first one are read as they are printed, up to the closing brace. -/
theorem readMembers_pretty (ms : List (Text × Json)) (level outer bound : Nat) (r : Text)
    (hbound : (prettyMembers level ms).length < bound) :
    readMembers bound (prettyMembers level ms ++ (newLine outer ++ '\x7d' :: r)) = some (ms, r) := by
  obtain ⟨bound, rfl⟩ : ∃ d, bound = d + 1 := ⟨bound - 1, by omega⟩
  match ms with
  | [] =>
      rw [prettyMembers, List.nil_append, readMembers, skipBlanks_newLine,
        skipBlanks_of_not_blank (by decide)]
      rfl
  | (k, v) :: ms =>
      simp only [prettyMembers, List.length_append, List.length_cons] at hbound
      obtain ⟨bound, rfl⟩ : ∃ d, bound = d + 1 := ⟨bound - 1, by omega⟩
      have hv := readValue_pretty v level bound
        (prettyMembers level ms ++ (newLine outer ++ '\x7d' :: r)) (by omega)
      have hms := readMembers_pretty ms level outer (bound + 1) r (by omega)
      have hprinted : prettyMembers level ((k, v) :: ms) ++ (newLine outer ++ '\x7d' :: r) =
          ',' :: (newLine level ++ (quoted k ++ ([':', ' '] ++ (pretty level v ++
            (prettyMembers level ms ++ (newLine outer ++ '\x7d' :: r)))))) := by
        simp [prettyMembers]
      rw [hprinted, readMembers, skipBlanks_of_not_blank (by decide)]
      show (readMember (bound + 1) (newLine level ++ _) >>= fun p => _) = _
      rw [readMember_congr (skipBlanks_newLine _ _), readMember_of_value hv]
      show (readMembers (bound + 1) _ >>= fun p => _) = _
      rw [hms]
      rfl

end

/-- A printed value is read as that value, also with a line break behind it. -/
theorem read?_pretty (v : Json) : read? (pretty 0 v ++ ['\n']) = some v := by
  have hread : readValue ((pretty 0 v ++ ['\n']).length + 1) (pretty 0 v ++ ['\n']) =
      some (v, ['\n']) := by
    refine readValue_pretty v 0 _ _ ?_
    rw [List.length_append]
    omega
  rw [read?, hread]
  rfl

/-- Different values are printed as different texts. -/
theorem pretty_injective : Function.Injective (pretty 0) := by
  intro v w h
  have hread : read? (pretty 0 v ++ ['\n']) = some w := by rw [h, read?_pretty]
  exact Option.some.inj ((read?_pretty v).symm.trans hread)

example : read? "[\"\\u00e9\" ,\n\t\x7b\"a\":null\x7d ]".toList =
    some (array [string "é".toList, object [("a".toList, null)]]) := by
  cbv

end HeaderReflection.Json
