import Cityscape.Number.Binary64

/-!
# `Shortest`: the fewest decimal digits that denote a double

A positive double stands for the interval of reals that round to it. Its shortest decimal is
the one with the fewest digits in that interval, and of those the nearest to the double; a
layout says which one is taken if two are equally near. Two layouts write it: one that always
shows a fraction and uses an exponent for very large and very small numbers, and one that never
uses an exponent.
-/

namespace Cityscape

/-- The number `digits * 10 ^ exponent`. -/
structure Decimal where
  digits : Nat
  exponent : Int
deriving DecidableEq

namespace Decimal

/-- A power of ten as a fraction: numerator and denominator. -/
def powTen (k : Int) : Nat × Nat := (Nat.pow 10 k.toNat, Nat.pow 10 (-k).toNat)

/-- The decimal digits of a natural number. -/
def digitChars (n : Nat) : List Char := Nat.toDigits 10 n

/-- The greatest `e` with `10 ^ e ≤ num / den`. -/
def log10Ratio (num den : Nat) : Int :=
  if den ≤ num then (digitChars (num / den)).length - 1
  else
    let l := (digitChars (den / num)).length
    if num * Nat.pow 10 (l - 1) = den then 1 - (l : Int) else -l

/-- The reals that round to a double, as numerators over a common denominator: the lower end,
the double itself and the upper end, and whether the ends belong to it. -/
structure Interval where
  low : Nat
  mid : Nat
  high : Nat
  den : Nat
  closed : Bool

/-- The interval of a double. Below a power of two the doubles lie half as far apart. -/
def Interval.of (x : Binary64) : Interval :=
  let m := x.significand
  let (n, d) := Binary64.powTwo x.exponent
  let gap := if m = Binary64.hiddenBit ∧ -1074 < x.exponent then 1 else 2
  ⟨(4 * m - gap) * n, 4 * m * n, (4 * m + 2) * n, 4 * d, m % 2 = 0⟩

/-- Whether the fraction `a / b` lies in the interval. -/
def Interval.holds (i : Interval) (a b : Nat) : Bool :=
  if i.closed then i.low * b ≤ a * i.den ∧ a * i.den ≤ i.high * b
  else i.low * b < a * i.den ∧ a * i.den < i.high * b

/-- Which of two decimals stands for a double that lies halfway between them. -/
inductive Tie where
  /-- The one with the even last digit. -/
  | even
  /-- The greater one. -/
  | up
deriving DecidableEq

/-- Whether the greater of two neighbours is taken in a tie; `below` is the smaller one. -/
def Tie.isUp (t : Tie) (below : Nat) : Bool :=
  match t with
  | .even => below % 2 = 1
  | .up => true

/-- The multiple of `10 ^ k` in the interval that is nearest to its middle, if there is one:
it is one of the two neighbours of the middle. -/
def Interval.onGrid (t : Tie) (i : Interval) (k : Int) : Option Decimal :=
  let (n, d) := powTen k
  let below := i.mid * d / (i.den * n)
  let above := below + 1
  let belowFits := i.holds (below * n) d
  let aboveFits := i.holds (above * n) d
  let half := (2 * below + 1) * n * i.den
  let aboveNearer := half < 2 * i.mid * d ∨ (half = 2 * i.mid * d ∧ t.isUp below)
  if belowFits ∧ ¬(aboveFits ∧ aboveNearer) then some ⟨below, k⟩
  else if aboveFits then some ⟨above, k⟩
  else none

/-- Moves factors of ten from the digits to the exponent, at most `fuel` of them. -/
def strip : Nat → Decimal → Decimal
  | 0, d => d
  | fuel + 1, d =>
    if d.digits % 10 = 0 ∧ d.digits ≠ 0 then strip fuel ⟨d.digits / 10, d.exponent + 1⟩ else d

/-- The shortest decimal of the absolute value of a finite double; 17 digits always do. -/
def shortest (t : Tie) (x : Binary64) : Decimal :=
  if x.significand = 0 then ⟨0, 0⟩
  else
    let i := Interval.of x
    let e := log10Ratio i.mid i.den
    match (List.range 17).findSome? fun n : Nat => i.onGrid t (e - n) with
    | some d => strip 20 d
    | none => ⟨0, 0⟩

/-! ## Layouts -/

/-- The doubles that no decimal denotes. -/
inductive Special where
  | infinity
  | negativeInfinity
  | undefined
deriving DecidableEq

/-- How a double is laid out. -/
structure Layout where
  /-- Whether a whole number ends in a point and a zero. -/
  point : Bool
  /-- Whether numbers from `10 ^ 16` on and below `10 ^ (-5)` are written with an exponent. -/
  scientific : Bool
  tie : Tie
  /-- What stands for a double without a decimal. -/
  special : Special → String

/-- A fraction is always shown, and extreme numbers have an exponent. -/
def Layout.json : Layout := ⟨true, true, .even, fun _ => "null"⟩

/-- Digits only, however many, and a point only before a fraction. -/
def Layout.plain : Layout where
  point := false
  scientific := false
  tie := .up
  special
    | .infinity => "inf"
    | .negativeInfinity => "-inf"
    | .undefined => "NaN"

/-- The digits with the point after the first `point` of them. -/
def positional (l : Layout) (digits : List Char) (point : Int) : List Char :=
  let n := digits.length
  if point ≤ 0 then '0' :: '.' :: List.replicate (-point).toNat '0' ++ digits
  else if point < n then digits.take point.toNat ++ '.' :: digits.drop point.toNat
  else digits ++ List.replicate (point.toNat - n) '0' ++ (if l.point then ['.', '0'] else [])

/-- One digit before the point, and the power of ten behind an `e`. -/
def withExponent (digits : List Char) (power : Int) : List Char :=
  let mantissa := match digits with
    | c :: c' :: cs => c :: '.' :: c' :: cs
    | cs => cs
  mantissa ++ 'e' :: (if power < 0 then '-' else '+') :: digitChars power.natAbs

/-- The text of a decimal that is not negative. -/
def layOut (l : Layout) (d : Decimal) : List Char :=
  if d.digits = 0 then if l.point then ['0', '.', '0'] else ['0']
  else
    let digits := digitChars d.digits
    let point := digits.length + d.exponent
    if l.scientific ∧ (point < -4 ∨ 16 < point) then withExponent digits (point - 1)
    else positional l digits point

end Decimal

namespace Binary64

/-- Which of the doubles without a decimal this one is, if it is one of them. -/
def special? (x : Binary64) : Option Decimal.Special :=
  if x.isFinite then none
  else if x.magnitude = 0x7FF * hiddenBit then
    some (if x.isNegative then .negativeInfinity else .infinity)
  else some .undefined

/-- The text of a double: for a finite one its sign and its shortest decimal. -/
def text (l : Decimal.Layout) (x : Binary64) : String :=
  match x.special? with
  | some special => l.special special
  | none =>
    String.ofList
      ((if x.isNegative then ['-'] else []) ++ Decimal.layOut l (Decimal.shortest l.tie x))

example : [(⟨0x7FF0000000000000⟩ : Binary64), ⟨0xFFF0000000000000⟩, ⟨0xFFF8000000000000⟩].map
    (text .plain) = ["inf", "-inf", "NaN"] := by decide

end Binary64

end Cityscape
