/-!
# The shortest decimal that names a double

A double stands for every real number that rounds to it. Its shortest decimal is a number from that interval with the
fewest digits, and of those the one nearest to the double. The search goes through grids of one, two, up to seventeen
digits and takes the two neighbours of the double on each grid; whatever lies in the interval on a grid has one of the
neighbours between it and the double, so no shorter decimal is missed.
-/

namespace LiveMarkup

/-- A decimal number: `digits` times a power of ten. -/
structure Decimal where
  digits : Nat
  power : Int
deriving DecidableEq, Repr

namespace Decimal

/-- The positive rational number `numerator / denominator`, with the ends of the interval of reals that round to the same
double over the same denominator. -/
structure Double where
  numerator : Nat
  low : Nat
  high : Nat
  denominator : Nat
  /-- Whether the ends of the interval belong to it. -/
  closed : Bool
deriving Repr

/-- The number of fractions that the bits of a double tell apart. -/
def fractionLimit : Nat := 0x10000000000000

/-- Reads the magnitude of a finite double off its bits. -/
def Double.ofBits (bits : UInt64) : Double :=
  let exponent : Nat := bits.toNat / fractionLimit % 0x800
  let fraction : Nat := bits.toNat % fractionLimit
  let significand := if exponent = 0 then fraction else fractionLimit + fraction
  let power : Int := if exponent = 0 then -1074 else (exponent : Int) - 1075
  let below := if fraction = 0 ∧ 1 < exponent then 1 else 2
  let up := Nat.pow 2 (power - 2).toNat
  { numerator := 4 * significand * up
    low := (4 * significand - below) * up
    high := (4 * significand + 2) * up
    denominator := Nat.pow 2 (2 - power).toNat
    closed := significand % 2 == 0 }

/-- The number of digits of a number, none for zero. -/
def digitCount (n : Nat) : Nat :=
  if n = 0 then 0 else (Nat.toDigits 10 n).length

/-- The power of ten of the first digit of a positive rational number. -/
def leadingPower (numerator denominator : Nat) : Int :=
  if denominator ≤ numerator then digitCount (numerator / denominator) - 1
  else -(digitCount ((denominator - 1) / numerator) : Int)

namespace Double

/-- Whether a multiple of a power of ten rounds to the double. -/
def covers (d : Double) (c : Decimal) : Bool :=
  let value := c.digits * Nat.pow 10 c.power.toNat * d.denominator
  let scale := Nat.pow 10 (-c.power).toNat
  if d.closed then d.low * scale ≤ value && value ≤ d.high * scale
  else d.low * scale < value && value < d.high * scale

/-- The neighbour on the grid of a power of ten that is nearest to the double and rounds to it. -/
def onGrid? (d : Double) (power : Int) : Option Decimal :=
  let scaled := d.numerator * Nat.pow 10 (-power).toNat
  let unit := d.denominator * Nat.pow 10 power.toNat
  let below : Decimal := ⟨scaled / unit, power⟩
  let above : Decimal := ⟨scaled / unit + 1, power⟩
  let rest := scaled % unit
  let first := 2 * rest < unit ∨ 2 * rest = unit ∧ below.digits % 2 = 0
  let inOrder := if first then [below, above] else [above, below]
  inOrder.find? fun c => c.digits ≠ 0 && d.covers c

/-- The shortest decimal from a number of digits on. -/
def search (d : Double) (leading : Int) : (fuel digits : Nat) → Decimal
  | 0, _ => ⟨0, 0⟩
  | fuel + 1, digits =>
    match d.onGrid? (leading + 1 - digits) with
    | some c => c
    | none => d.search leading fuel (digits + 1)

end Double

/-- The digits and the power of ten of the first of them. -/
structure Shortest where
  digits : List Char
  leading : Int
deriving DecidableEq, Repr

/-- The shortest decimal of the magnitude of a finite double; zero has the digit zero. -/
def shortest (bits : UInt64) : Shortest :=
  let d := Double.ofBits bits
  if d.numerator = 0 then ⟨['0'], 0⟩
  else
    let c := d.search (leadingPower d.numerator d.denominator) 17 1
    let digits := Nat.toDigits 10 c.digits
    let kept := (digits.reverse.dropWhile (· == '0')).reverse
    ⟨kept, c.power + digits.length - 1⟩

end Decimal

end LiveMarkup
