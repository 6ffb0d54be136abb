import TemplateSyntax.Decimal.Binary64

/-!
# Shortest decimal text of a double

Of the decimals that read back as a given double, the text has one with the fewest digits, and among those the one
nearest to the double, a tie going to the even last digit. With one digit, two digits and so on, only the two grid
points next to the double have to be tried: if any point of the grid reads back, so does one of these.
-/

namespace TemplateSyntax.Decimal

namespace Binary64

/-- The exponent `x` with `10 ^ x ≤ n / d < 10 ^ (x + 1)`, for a positive quotient. -/
def decimalExponent (n d : Nat) : Int :=
  if d ≤ n then (Nat.toDigits 10 (n / d)).length - 1
  else -((Nat.toDigits 10 ((d + n - 1) / n - 1)).length : Int)

/-- The reals that round to a double, over a common denominator: `value` itself, and how far they reach `below` and
`above` it. The two ends belong to the interval iff `closed`. -/
structure Interval where
  value : Nat
  below : Nat
  above : Nat
  denominator : Nat
  closed : Bool

/-- Below a power of two the neighbours are twice as close as above it. -/
def interval (mantissa : Nat) (exponent : Int) : Interval where
  value := 4 * mantissa * Nat.pow 2 exponent.toNat
  below := (if mantissa = Nat.pow 2 52 ∧ exponent > -1074 then 1 else 2) * Nat.pow 2 exponent.toNat
  above := 2 * Nat.pow 2 exponent.toNat
  denominator := 4 * Nat.pow 2 (-exponent).toNat
  closed := mantissa % 2 = 0

/-- `c * 10 ^ p` lies in the interval. -/
def Interval.holds (i : Interval) (p : Int) (c : Nat) : Bool :=
  let point := c * Nat.pow 10 p.toNat * i.denominator
  let unit := Nat.pow 10 (-p).toNat
  let lo := (i.value - i.below) * unit
  let hi := (i.value + i.above) * unit
  if i.closed then decide (lo ≤ point) && decide (point ≤ hi) else decide (lo < point) && decide (point < hi)

/-- The nearest multiple of `10 ^ p` that lies in the interval, if one of the two next to the value does. -/
def Interval.nearest? (i : Interval) (p : Int) : Option Nat :=
  let step := Nat.pow 10 p.toNat * i.denominator
  let value := i.value * Nat.pow 10 (-p).toNat
  let c := value / step
  let r := value % step
  let upFirst := decide (2 * r > step) || (decide (2 * r = step) && decide (c % 2 = 1))
  let (first, second) := if upFirst then (c + 1, c) else (c, c + 1)
  if i.holds p first then some first else if i.holds p second then some second else none

/-- The first grid with a hit, from `n` digits on; the value itself once `fuel` grids have been tried. -/
def Interval.search (i : Interval) (x : Int) : (fuel n : Nat) → Nat × Int
  | 0, n => (i.value * Nat.pow 10 (n - 1 - x).toNat / (Nat.pow 10 (x + 1 - n).toNat * i.denominator), x + 1 - n)
  | fuel + 1, n =>
    match i.nearest? (x + 1 - n) with
    | some c => (c, x + 1 - n)
    | none => i.search x fuel (n + 1)

/-- The shortest decimal `c * 10 ^ p` that reads back as the double. Seventeen digits always suffice. -/
def shortest (mantissa : Nat) (exponent : Int) : Nat × Int :=
  let i := interval mantissa exponent
  i.search (decimalExponent i.value i.denominator) 17 1

end Binary64

/-! ### Layout -/

private def zeros (n : Nat) : List Char :=
  List.replicate n '0'

/-- A number whose first digit stands at `10 ^ x`, written plainly; there is always a fraction. -/
def plain (digits : List Char) (x : Int) : List Char :=
  if x < 0 then '0' :: '.' :: zeros (-x - 1).toNat ++ digits
  else
    let whole := x.toNat + 1
    if digits.length ≤ whole then digits ++ zeros (whole - digits.length) ++ ['.', '0']
    else digits.take whole ++ '.' :: digits.drop whole

/-- A number whose first digit stands at `10 ^ x`, written with an exponent. -/
def scientific (digits : List Char) (x : Int) : List Char :=
  let mantissa :=
    match digits with
    | d :: e :: rest => d :: '.' :: e :: rest
    | ds => ds
  mantissa ++ 'e' :: (if x < 0 then '-' else '+') :: Nat.toDigits 10 x.natAbs

/-- The plain form is used when the first digit stands between `10 ^ (-5)` and `10 ^ 15`. -/
def layout (digits : List Char) (x : Int) : List Char :=
  if -5 ≤ x ∧ x ≤ 15 then plain digits x else scientific digits x

/-- The text of a finite double; an infinite one has none. -/
def Binary64.text? : Binary64 → Option (List Char)
  | .infinite => none
  | .finite 0 _ => some ['0', '.', '0']
  | .finite m e =>
    let (c, p) := shortest m e
    let all := Nat.toDigits 10 c
    let x : Int := p + all.length - 1
    some (layout (all.reverse.dropWhile (· == '0')).reverse x)

example : (Binary64.ofDecimal 1 (-1)).text? = some "0.1".toList := by decide
example : (Binary64.ofDecimal 5 (-324)).text? = some "5e-324".toList := by decide +kernel
example : (Binary64.ofDecimal 1 16).text? = some "1e+16".toList := by decide +kernel
example : (Binary64.ofDecimal 12345678901234567890123 (-2)).text? = some "1.2345678901234568e+20".toList := by
  decide
example : (Binary64.ofDecimal 1 400).text? = none := by decide

end TemplateSyntax.Decimal
