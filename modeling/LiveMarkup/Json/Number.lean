import LiveMarkup.Decimal.Shortest

/-!
# Numbers in JSON

An integer that fits 64 bits, signed or not, is kept as it is. Any other number becomes a double: as many digits as fit
64 bits make up a whole number, which is then multiplied or divided by the power of ten that remains, each step rounded. A
number whose magnitude no double reaches is refused.
-/

namespace LiveMarkup.Json

/-- A number as it is read. -/
inductive Number
  /-- An integer of 64 bits, with a sign or without. -/
  | integer (n : Int)
  /-- A double, by its bits. -/
  | double (bits : UInt64)
deriving DecidableEq, Repr, Inhabited

namespace Number

/-- A number as it is spelled: its sign, the digits before and after the point, and the exponent with its sign. -/
structure Spelling where
  negative : Bool
  whole : List Char
  fraction : List Char
  exponent : Option (Bool × List Char)
  /-- Whether there is a point or an exponent. -/
  isDouble : Bool
deriving Repr

/-- One more than the largest natural number of 64 bits. -/
def wordLimit : Nat := 0x10000000000000000

/-- One more than the largest integer of 64 bits with a sign, and the magnitude of the smallest. -/
def signedLimit : Nat := 0x8000000000000000

/-- The value of a decimal digit. -/
def digitValue (c : Char) : Nat :=
  c.toNat - '0'.toNat

/-- The number that decimal digits write. -/
def ofDigits (digits : List Char) : Nat :=
  digits.foldl (fun n c => n * 10 + digitValue c) 0

/-- Appends digits to a number while it fits 64 bits; gives the number and how many digits were left over. -/
def gather : Nat → List Char → Nat × Nat
  | n, [] => (n, 0)
  | n, c :: rest =>
    let next := n * 10 + digitValue c
    if next < wordLimit then gather next rest else (n, rest.length + 1)

/-- A power of ten as a double. -/
def powerOfTen (n : Nat) : Float :=
  Float.ofScientific 1 false n

/-- A double divided by a power of ten, in steps that a double can hold. -/
def scaleDown (f : Float) (n : Nat) : Float :=
  if n ≤ 308 then f / powerOfTen n
  else if f == 0 then f
  else scaleDown (f / powerOfTen 308) (n - 308)
termination_by n

/-- A whole number times a power of ten, as a double, unless it is too large. -/
def scale? (significand : Nat) (power : Int) : Option Float :=
  let f := (UInt64.ofNat significand).toFloat
  if power < 0 then some (scaleDown f power.natAbs)
  else if power ≤ 308 then
    let f := f * powerOfTen power.toNat
    if f.isInf then none else some f
  else if significand = 0 then some f
  else none

/-- A double with a sign. -/
def signed (negative : Bool) (f : Float) : Number :=
  .double (if negative then -f else f).toBits

/-- The largest exponent that is counted out. -/
def exponentLimit : Nat := 0x7FFFFFFF

/-- The number that is spelled, unless its magnitude is too large. -/
def ofSpelling? (s : Spelling) : Option Number :=
  let (significand, dropped) := gather 0 s.whole
  if s.isDouble = false ∧ dropped = 0 then
    if s.negative then
      if 0 < significand ∧ significand ≤ signedLimit then some (.integer (-significand))
      else some (signed true (UInt64.ofNat significand).toFloat)
    else some (.integer significand)
  else
    let (significand, left) := gather significand s.fraction
    let power : Int := dropped - (s.fraction.length - left : Nat)
    let scaled? :=
      match s.exponent with
      | none => scale? significand power
      | some (down, digits) =>
        let exponent := ofDigits digits
        if exponentLimit < exponent then if significand ≠ 0 ∧ down = false then none else some 0
        else scale? significand (if down then power - exponent else power + exponent)
    scaled?.map (signed s.negative)

/-- A shortest decimal with the point among its digits, or with an exponent where the point is far from them. -/
def writeShortest (s : Decimal.Shortest) : List Char :=
  let count : Int := s.digits.length
  if -5 ≤ s.leading ∧ s.leading ≤ 15 then
    if s.leading < 0 then '0' :: '.' :: (List.replicate (-s.leading - 1).toNat '0' ++ s.digits)
    else if count ≤ s.leading + 1 then
      s.digits ++ List.replicate (s.leading + 1 - count).toNat '0' ++ ['.', '0']
    else s.digits.take (s.leading + 1).toNat ++ '.' :: s.digits.drop (s.leading + 1).toNat
  else
    let mantissa := match s.digits with
      | first :: second :: rest => first :: '.' :: second :: rest
      | digits => digits
    mantissa ++ 'e' :: (if s.leading < 0 then '-' else '+') :: Nat.toDigits 10 s.leading.natAbs

/-- The number as it is written. -/
def written : Number → String
  | integer n => toString n
  | double bits =>
    let magnitude := writeShortest (Decimal.shortest bits)
    String.ofList (if signedLimit ≤ bits.toNat then '-' :: magnitude else magnitude)

end Number

end LiveMarkup.Json
