/-!
# Decimal text with a fixed number of places

A fraction of natural numbers as text with a given number of decimal places, and the nearest fraction
with 53 significant bits, in which quotients are kept before they are shown. Both round to the nearest
value, halves to the even neighbour.
-/

namespace GroupCommit.Numeral

/-- The nearest natural number to `n / d`, the even one of two that are equally near. -/
def roundHalfEven (n d : Nat) : Nat :=
  let q := n / d
  let twice := 2 * (n % d)
  if d < twice ∨ (twice = d ∧ q % 2 = 1) then q + 1 else q

/-- The power of ten with this exponent. -/
def tenTo : Nat → Nat
  | 0 => 1
  | n + 1 => 10 * tenTo n

/-- A fraction of natural numbers. -/
structure Fraction where
  num : Nat
  den : Nat
  deriving DecidableEq, Repr

namespace Fraction

/-- How many significant bits a quotient keeps. -/
def significantBits : Nat := 53

/-- The fraction doubled `up` times and halved `down` times. -/
def scale (x : Fraction) (up down : Nat) : Fraction := ⟨x.num <<< up, x.den <<< down⟩

/-- The number of binary places that a positive fraction has when its integral part takes exactly
`significantBits` bits, as the times to double it and the times to halve it. -/
def binaryPlaces (x : Fraction) : Nat × Nat :=
  let up := significantBits + x.den.log2 - x.num.log2
  let down := x.num.log2 - (significantBits + x.den.log2)
  let y := x.scale up down
  if y.den <<< significantBits ≤ y.num then
    if 0 < up then (up - 1, down) else (up, down + 1)
  else (up, down)

/-- The nearest fraction with `significantBits` significant bits. -/
def nearest (x : Fraction) : Fraction :=
  if x.num = 0 then x
  else
    let (up, down) := x.binaryPlaces
    let y := x.scale up down
    (Fraction.mk (roundHalfEven y.num y.den) 1).scale down up

/-- The fraction with so many decimal places, after a point. -/
def toFixed (x : Fraction) (places : Nat) : String :=
  let units := roundHalfEven (x.num * tenTo places) x.den
  let digits := toString (units % tenTo places)
  if places = 0 then toString units
  else
    toString (units / tenTo places) ++ "."
      ++ String.ofList (List.replicate (places - digits.length) '0') ++ digits

end Fraction

end GroupCommit.Numeral
