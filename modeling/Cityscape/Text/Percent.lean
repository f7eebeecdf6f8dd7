/-!
# `Percent`: percent-encoded text

A percent sign with two hexadecimal digits stands for one byte; every other character stands
for its own UTF-8 bytes, a percent sign without such digits included. The bytes together must
be UTF-8.
-/

namespace Cityscape.Text

/-- The value of a hexadecimal digit in either case. -/
def hexDigit? (c : Char) : Option Nat :=
  if '0' ≤ c ∧ c ≤ '9' then some (c.toNat - '0'.toNat)
  else if 'a' ≤ c ∧ c ≤ 'f' then some (c.toNat - 'a'.toNat + 10)
  else if 'A' ≤ c ∧ c ≤ 'F' then some (c.toNat - 'A'.toNat + 10)
  else none

/-- The UTF-8 bytes of one character. -/
def charBytes (c : Char) : List UInt8 := (String.singleton c).toUTF8.toList

/-- The byte that a percent sign and two digits at the start of a text stand for. -/
def escapedByte? : List Char → Option UInt8
  | '%' :: a :: b :: _ => do
    let hi ← hexDigit? a
    let lo ← hexDigit? b
    return .ofNat (16 * hi + lo)
  | _ => none

/-- The bytes of a percent-encoded text; `skip` characters belong to an escape already read. -/
def percentBytes (skip : Nat) : List Char → List UInt8
  | [] => []
  | c :: cs =>
    match skip with
    | skip + 1 => percentBytes skip cs
    | 0 =>
      match escapedByte? (c :: cs) with
      | some b => b :: percentBytes 2 cs
      | none => charBytes c ++ percentBytes 0 cs

/-- The text that a percent-encoded text stands for, unless its bytes are not UTF-8. -/
def percentDecode? (cs : List Char) : Option String :=
  String.fromUTF8? ⟨(percentBytes 0 cs).toArray⟩

end Cityscape.Text
