import Cityscape.Number.Binary64

/-!
# `Reading`: the double that a decimal text stands for

The digits of a decimal are gathered in a significand of 64 bits. A digit that no longer fits
is dropped: before the point it counts as one power of ten, after the point it counts for
nothing. The significand is rounded to a double and then multiplied or divided by the power of
ten, rounded as well. The result is therefore not always the nearest double: the last bit may
be off for decimals of more than 15 digits or with large powers.
-/

namespace Cityscape

/-- The digits read so far: the number `significand * 10 ^ exponent`. -/
structure Gathered where
  significand : Nat
  exponent : Int
  /-- Whether a digit had to be dropped. -/
  full : Bool

namespace Gathered

/-- Takes up a digit before the point. -/
def whole (g : Gathered) (d : Nat) : Gathered :=
  if g.full ∨ UInt64.size ≤ g.significand * 10 + d then
    { g with exponent := g.exponent + 1, full := true }
  else { g with significand := g.significand * 10 + d }

/-- Takes up a digit after the point. -/
def fraction (g : Gathered) (d : Nat) : Gathered :=
  if g.full ∨ UInt64.size ≤ g.significand * 10 + d then { g with full := true }
  else { g with significand := g.significand * 10 + d, exponent := g.exponent - 1 }

/-- Gathers the digits before and after the point. -/
def ofDigits (before after : List Nat) : Gathered :=
  let g := before.foldl whole ⟨0, 0, false⟩
  after.foldl fraction { g with full := false }

end Gathered

namespace Binary64

/-- The double `significand * 10 ^ exponent`, reached by one multiplication or at most two
divisions; `none` if it is too large. -/
def ofScientific? (significand : Nat) (exponent : Int) : Option Binary64 :=
  let f := ofInt significand
  if 0 ≤ exponent then
    if significand = 0 then some f
    else if 308 < exponent then none
    else
      let x := f.mul (powTen exponent.toNat)
      if x.isFinite then some x else none
  else if -308 ≤ exponent then some (f.div (powTen (-exponent).toNat))
  else if -616 ≤ exponent then some ((f.div (powTen 308)).div (powTen (-exponent - 308).toNat))
  else some (ofInt 0)

/-- The double of a decimal: its sign, the digits before and after the point, and the power of
ten; `none` if it is too large. -/
def ofDecimal? (negative : Bool) (before after : List Nat) (power : Int) : Option Binary64 :=
  let g := Gathered.ofDigits before after
  let x := ofScientific? g.significand (g.exponent + power)
  if negative then x.map neg else x

end Binary64

end Cityscape
