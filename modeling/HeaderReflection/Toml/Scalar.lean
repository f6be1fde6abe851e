/-
  HeaderReflection.Toml.Scalar

  Numbers, dates and times, and truth values. Integers are those of 64 bits; a
  float may not be so large that it rounds to infinity, and a date has to be
  in the calendar.
-/
import HeaderReflection.Toml.Reader
import HeaderReflection.Toml.Value

namespace HeaderReflection.Toml

/-! ## Digits -/

/-- Takes digits up to the first other character. An underscore may stand between two of them, and
is dropped. -/
def moreDigits (isDigit : Char → Bool) : Reader Text
  | [] => some ([], [])
  | '_' :: c :: r =>
    if isDigit c then (moreDigits isDigit r).map fun (ds, r) => (c :: ds, r) else none
  | c :: r =>
    if c == '_' then none
    else if isDigit c then (moreDigits isDigit r).map fun (ds, r) => (c :: ds, r)
    else some ([], c :: r)

/-- Takes one digit or more. -/
def digits (isDigit : Char → Bool) : Reader Text
  | [] => none
  | c :: r =>
    if isDigit c then (moreDigits isDigit r).map fun (ds, r) => (c :: ds, r) else none

/-- Takes a decimal number without needless zeros in front. -/
def decimalDigits : Reader Text
  | '0' :: r => some (['0'], r)
  | s => digits Char.isDigit s

/-- Takes a sign, if there is one, and says whether it is a minus. -/
def sign : Text → Bool × Text
  | '-' :: r => (true, r)
  | '+' :: r => (false, r)
  | s => (false, s)

/-! ## Integers -/

/-- The integer, if it has 64 bits. -/
def int64? (n : Int) : Option Value :=
  if Int64.minValue.toInt ≤ n && n ≤ Int64.maxValue.toInt then some (.integer n) else none

/-- Takes the digits of an integer in the given base. -/
def radixInteger (base : Nat) (isDigit : Char → Bool) : Reader Value := fun s => do
  let (ds, r) ← digits isDigit s
  let v ← int64? (natOfDigits base ds)
  return (v, r)

/-- Takes an integer. -/
def integer : Reader Value
  | '0' :: 'x' :: r => radixInteger 16 isHexDigit r
  | '0' :: 'o' :: r => radixInteger 8 (fun c => '0' ≤ c && c ≤ '7') r
  | '0' :: 'b' :: r => radixInteger 2 (fun c => c == '0' || c == '1') r
  | s => do
    let (negative, r) := sign s
    let (ds, r) ← decimalDigits r
    let n : Int := natOfDigits 10 ds
    let v ← int64? (if negative then -n else n)
    return (v, r)

/-! ## Floats -/

/-- Does `digits` times ten to the `exponent` round to infinity as a double? The least number that
does lies half a step above the largest double. -/
def overflows (digits : Text) (exponent : Int) : Bool :=
  let ds := digits.dropWhile (· == '0')
  let magnitude : Int := ds.length + exponent
  let limit := Nat.pow 2 1024 - Nat.pow 2 970
  if ds.isEmpty || magnitude ≤ 308 then false
  else if 310 ≤ magnitude then true
  else if 0 ≤ exponent then limit ≤ natOfDigits 10 ds * Nat.pow 10 exponent.toNat
  else limit * Nat.pow 10 (-exponent).toNat ≤ natOfDigits 10 ds

/-- Takes a fraction, which starts with a point. -/
def fraction : Reader Text
  | '.' :: r => digits Char.isDigit r
  | _ => none

/-- Takes an exponent. -/
def exponent : Reader Int
  | c :: r =>
    if c == 'e' || c == 'E' then do
      let (negative, r) := sign r
      let (ds, r) ← digits Char.isDigit r
      let n : Int := natOfDigits 10 ds
      return (if negative then -n else n, r)
    else none
  | [] => none

/-- Takes a float: a decimal number with a fraction, an exponent or both, or a name of infinity or
of no number. A positive one may not round to infinity. -/
def float : Reader Value := fun s =>
  let (negative, r) := sign s
  let done (r : Text) : Value × Text := (.float (s.take (s.length - r.length)), r)
  match (expect "inf".toList r).or (expect "nan".toList r) with
  | some r => some (done r)
  | none => do
    let (whole, r) ← decimalDigits r
    let part := fraction r
    let (places, r') := part.getD ([], r)
    let power := exponent r'
    if part.isNone && power.isNone then none
    let (e, r') := power.getD (0, r')
    if !negative && overflows (whole ++ places) (e - places.length) then none
    return done r'

/-! ## Dates and times -/

/-- Takes a number of exactly `count` digits between two bounds. -/
def fixedNumber (count low high : Nat) : Reader Nat := fun s =>
  let ds := s.take count
  let n := natOfDigits 10 ds
  if ds.length == count && ds.all Char.isDigit && low ≤ n && n ≤ high then some (n, s.drop count)
  else none

/-- Number of days of a month. -/
def daysOfMonth (year month : Nat) : Nat :=
  if month == 2 then
    if year % 4 == 0 && (year % 100 != 0 || year % 400 == 0) then 29 else 28
  else if month == 4 || month == 6 || month == 9 || month == 11 then 30
  else 31

/-- Takes a date. -/
def date (s : Text) : Option Text := do
  let (year, r) ← fixedNumber 4 0 9999 s
  let r ← expect ['-'] r
  let (month, r) ← fixedNumber 2 1 12 r
  let r ← expect ['-'] r
  let (_, r) ← fixedNumber 2 1 (daysOfMonth year month) r
  return r

/-- Takes a time of day; a second may be a leap second. -/
def time (s : Text) : Option Text := do
  let (_, r) ← fixedNumber 2 0 23 s
  let r ← expect [':'] r
  let (_, r) ← fixedNumber 2 0 59 r
  let r ← expect [':'] r
  let (_, r) ← fixedNumber 2 0 60 r
  match r with
  | '.' :: c :: rest => return if c.isDigit then rest.dropWhile Char.isDigit else r
  | _ => return r

/-- Takes the offset of a time from universal time. -/
def timeOffset : Text → Option Text
  | c :: r =>
    if c == 'Z' || c == 'z' then some r
    else if c == '+' || c == '-' then do
      let (_, r) ← fixedNumber 2 0 23 r
      let r ← expect [':'] r
      let (_, r) ← fixedNumber 2 0 59 r
      return r
    else none
  | [] => none

/-- Takes what may follow a date: a time, and an offset after that. -/
def timeOfDate : Text → Option Text
  | c :: r =>
    if c == 'T' || c == 't' || c == ' ' then
      (time r).map fun r => (timeOffset r).getD r
    else none
  | [] => none

/-- Takes a date, a time, or both. -/
def dateTime : Reader Value := fun s => do
  let r ← ((date s).map fun r => (timeOfDate r).getD r).or (time s)
  return (.dateTime (s.take (s.length - r.length)), r)

/-! ## All scalars -/

/-- Takes a truth value. -/
def boolean : Reader Value := fun s =>
  match expect "true".toList s with
  | some r => some (.boolean true, r)
  | none => (expect "false".toList s).map fun r => (.boolean false, r)

/-- Takes a scalar other than a string. A date is tried before a float and a float before an integer,
for the one may begin like the other. -/
def scalar : Reader Value := fun s =>
  (boolean s).or <| (dateTime s).or <| (float s).or (integer s)

end HeaderReflection.Toml
