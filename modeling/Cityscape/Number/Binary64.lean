/-!
# `Binary64`: double precision numbers as bit patterns

A double is kept as its 64 bits, and all arithmetic on it is exact arithmetic on naturals
followed by one rounding to the nearest double, ties to the even significand. So every
statement about a double is one about natural numbers.
-/

namespace Cityscape

/-- A double precision number: a sign bit, 11 exponent bits and 52 bits of significand. -/
structure Binary64 where
  bits : UInt64
deriving DecidableEq, Inhabited

namespace Binary64

/-- The weight of the sign bit. -/
def signBit : Nat := 0x8000000000000000

/-- The weight of the hidden bit, the one before the 52 that are kept of a significand. -/
def hiddenBit : Nat := 0x10000000000000

/-- A power of two as a fraction: numerator and denominator. -/
def powTwo (q : Int) : Nat × Nat := (Nat.pow 2 q.toNat, Nat.pow 2 (-q).toNat)

/-- Whether the sign bit is set. -/
def isNegative (x : Binary64) : Bool := signBit ≤ x.bits.toNat

/-- The bits below the sign. -/
def magnitude (x : Binary64) : Nat := x.bits.toNat % signBit

/-- Whether the number is neither infinite nor undefined. -/
def isFinite (x : Binary64) : Bool := x.magnitude < 0x7FF * hiddenBit

/-- The significand as an integer, hidden bit included. -/
def significand (x : Binary64) : Nat :=
  if x.magnitude < hiddenBit then x.magnitude else hiddenBit + x.magnitude % hiddenBit

/-- The exponent `q` with `|x| = significand * 2 ^ q`. -/
def exponent (x : Binary64) : Int :=
  if x.magnitude < hiddenBit then -1074 else (x.magnitude / hiddenBit : Nat) - 1075

/-- The absolute value as a fraction: numerator and denominator. -/
def ratio (x : Binary64) : Nat × Nat :=
  let (n, d) := powTwo x.exponent
  (x.significand * n, d)

/-! ## Rounding -/

/-- The quotient `a / b` rounded to the nearest natural, a tie to the even one. -/
def divHalfEven (a b : Nat) : Nat :=
  let q := a / b
  let r := a % b
  if b < 2 * r ∨ (2 * r = b ∧ q % 2 = 1) then q + 1 else q

/-- The greatest `e` with `2 ^ e ≤ num / den`. -/
def log2Ratio (num den : Nat) : Int :=
  let e : Int := (num.log2 : Int) - den.log2
  let (n, d) := powTwo e
  if num * d < den * n then e - 1 else e

/-- The bits below the sign of the double nearest to `num / den`. The significand has 53 bits
unless the exponent would fall below that of the smallest double; a significand that rounds
up to 54 bits carries into the exponent. What is too large becomes infinite. -/
def roundMagnitude (num den : Nat) : Nat :=
  if num = 0 then 0
  else
    let q := max (log2Ratio num den - 52) (-1074)
    let (n, d) := powTwo q
    let m := divHalfEven (num * d) (den * n)
    min ((q + 1074).toNat * hiddenBit + m) (0x7FF * hiddenBit)

/-- The double nearest to `num / den`, with the given sign. -/
def ofRatio (negative : Bool) (num den : Nat) : Binary64 :=
  ⟨.ofNat ((if negative then signBit else 0) + roundMagnitude num den)⟩

/-- The double nearest to an integer. -/
def ofInt (n : Int) : Binary64 := ofRatio (n < 0) n.natAbs 1

/-- The product of two finite doubles, rounded. -/
def mul (x y : Binary64) : Binary64 :=
  let (a, b) := x.ratio
  let (c, d) := y.ratio
  ofRatio (x.isNegative != y.isNegative) (a * c) (b * d)

/-- The quotient of two finite doubles, rounded; the divisor is not zero. -/
def div (x y : Binary64) : Binary64 :=
  let (a, b) := x.ratio
  let (c, d) := y.ratio
  ofRatio (x.isNegative != y.isNegative) (a * d) (b * c)

/-- The same number with the opposite sign. -/
def neg (x : Binary64) : Binary64 := ⟨x.bits ^^^ 0x8000000000000000⟩

/-- The double nearest to `10 ^ k`. -/
def powTen (k : Nat) : Binary64 := ofRatio false (Nat.pow 10 k) 1

example : ofInt 1 = ⟨0x3FF0000000000000⟩ := by decide
example : ofInt (-2) = ⟨0xC000000000000000⟩ := by decide
example : ofRatio false 1 10 = ⟨0x3FB999999999999A⟩ := by decide
example : ofInt (2 * hiddenBit + 1) = ofInt (2 * hiddenBit) := by decide
example : (powTen 308).isFinite = true ∧ (powTen 309).isFinite = false := by decide +kernel

end Binary64

end Cityscape
