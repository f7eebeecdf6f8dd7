import Cityscape.Json.Basic
import Cityscape.Number.Reading
import Cityscape.Text.Percent

/-!
# `Parser`: reading JSON from a text

A reader goes from left to right. At the first character that cannot continue a JSON text it
leaves a torn value and stops; what it has read so far stays. Arrays and objects may be nested
127 deep; what is deeper, a number that is too large and a string with half of a surrogate pair
are well formed but unfit.
-/

namespace Cityscape.Json

/-- Blank characters between the parts of a JSON text. -/
def isGap (c : Char) : Bool := c = ' ' ∨ c = '\n' ∨ c = '\t' ∨ c = '\r'

/-- The text without the blanks at its start. -/
def skipGap (cs : List Char) : List Char := cs.dropWhile isGap

/-- How deeply arrays and objects may be nested. -/
def maxDepth : Nat := 127

/-! ## Strings -/

/-- A part of a string literal: a character that stands for itself, or a code unit given by its
number. -/
inductive Glyph where
  | char (c : Char)
  | codeUnit (n : Nat)

/-- The character of a one-letter escape. -/
def shortEscape? : Char → Option Char
  | '"' => some '"'
  | '\\' => some '\\'
  | '/' => some '/'
  | 'b' => some '\x08'
  | 'f' => some '\x0C'
  | 'n' => some '\n'
  | 'r' => some '\r'
  | 't' => some '\t'
  | _ => none

/-- The number of four hexadecimal digits. -/
def fourDigits? (a b c d : Char) : Option Nat := do
  let a ← Text.hexDigit? a
  let b ← Text.hexDigit? b
  let c ← Text.hexDigit? c
  let d ← Text.hexDigit? d
  return ((a * 16 + b) * 16 + c) * 16 + d

/-- The parts of a string literal up to its closing quote, and the text behind the quote. -/
def glyphs : List Char → Option (List Glyph × List Char)
  | [] => none
  | '"' :: cs => some ([], cs)
  | '\\' :: 'u' :: a :: b :: c :: d :: cs => do
    let n ← fourDigits? a b c d
    let (gs, rest) ← glyphs cs
    return (.codeUnit n :: gs, rest)
  | '\\' :: e :: cs => do
    let c ← shortEscape? e
    let (gs, rest) ← glyphs cs
    return (.char c :: gs, rest)
  | c :: cs =>
    if c.toNat < 0x20 ∨ c = '\\' then none
    else do
      let (gs, rest) ← glyphs cs
      return (.char c :: gs, rest)

/-- The characters of a string literal: a high surrogate forms one character with the low
surrogate that must follow it. -/
def pairSurrogates : List Glyph → Option (List Char)
  | [] => some []
  | .char c :: gs => (pairSurrogates gs).map (c :: ·)
  | .codeUnit n :: gs =>
    if 0xD800 ≤ n ∧ n ≤ 0xDBFF then
      match gs with
      | .codeUnit m :: gs =>
        if 0xDC00 ≤ m ∧ m ≤ 0xDFFF then
          (pairSurrogates gs).map (.ofNat (0x10000 + (n - 0xD800) * 0x400 + (m - 0xDC00)) :: ·)
        else none
      | _ => none
    else if 0xDC00 ≤ n ∧ n ≤ 0xDFFF then none
    else (pairSurrogates gs).map (.ofNat n :: ·)

/-! ## Numbers -/

/-- The value of a decimal digit. -/
def digit? (c : Char) : Option Nat :=
  if '0' ≤ c ∧ c ≤ '9' then some (c.toNat - '0'.toNat) else none

/-- The digits at the start of a text, and what follows them. -/
def digits : List Char → List Nat × List Char
  | [] => ([], [])
  | c :: cs =>
    match digit? c with
    | some d => let (ds, rest) := digits cs; (d :: ds, rest)
    | none => ([], c :: cs)

/-- The natural number that digits denote. -/
def ofDigits (ds : List Nat) : Nat := ds.foldl (fun n d => n * 10 + d) 0

/-- The digits after a point, none if there is no point; a point needs digits. -/
def fractionPart : List Char → Option (List Nat × List Char)
  | '.' :: cs =>
    match digits cs with
    | ([], _) => none
    | found => some found
  | cs => some ([], cs)

/-- The power of ten after an `e`; an `e` needs digits. -/
def exponentPart (cs : List Char) : Option (Option Int × List Char) :=
  match cs with
  | c :: cs' =>
    if c = 'e' ∨ c = 'E' then
      let (negative, cs') := match cs' with
        | '-' :: r => (true, r)
        | '+' :: r => (false, r)
        | r => (false, r)
      match digits cs' with
      | ([], _) => none
      | (ds, rest) =>
        let n : Int := ofDigits ds
        some (some (if negative then -n else n), rest)
    else some (none, cs)
  | [] => some (none, [])

/-- The value of a number: an integer if it is written as one and fits 64 bits, else a double.
A minus before zero needs the double. -/
def numberValue (negative : Bool) (whole fraction : List Nat) (power : Option Int) : Json :=
  let n := ofDigits whole
  let integral := fraction.isEmpty && power.isNone
  if integral ∧ ¬negative ∧ n < UInt64.size then .int n
  else if integral ∧ negative ∧ 0 < n ∧ n ≤ 0x8000000000000000 then .int (-n)
  else
    match Binary64.ofDecimal? negative whole fraction (power.getD 0) with
    | some x => .float x
    | none => .unfit

/-- A number and the text behind it; no digit may follow a leading zero. -/
def number (negative : Bool) (cs : List Char) : Json × Option (List Char) :=
  match digits cs with
  | ([], _) => (.torn, none)
  | (0 :: _ :: _, _) => (.torn, none)
  | (whole, rest) =>
    match fractionPart rest with
    | none => (.torn, none)
    | some (fraction, rest) =>
      match exponentPart rest with
      | none => (.torn, none)
      | some (power, rest) => (numberValue negative whole fraction power, some rest)

/-! ## Values -/

/-- A string literal behind its opening quote. -/
def string (cs : List Char) : Json × Option (List Char) :=
  match glyphs cs with
  | none => (.torn, none)
  | some (gs, rest) =>
    match pairSurrogates gs with
    | some s => (.str (String.ofList s), some rest)
    | none => (.unfit, some rest)

/-- A literal word. -/
def word (w : List Char) (j : Json) (cs : List Char) : Json × Option (List Char) :=
  if w.isPrefixOf cs then (j, some (cs.drop w.length)) else (.torn, none)

/-- An array or object, unless it is nested too deeply. -/
def within (depth : Nat) (j : Json) (rest : Option (List Char)) : Json × Option (List Char) :=
  if depth = 0 ∧ rest.isSome then (.unfit, rest) else (j, rest)

mutual

/-- The value at the start of a text, and the text behind it unless the value is torn. `depth`
more arrays and objects may be nested; `fuel` bounds the number of parts. -/
def value (fuel depth : Nat) (cs : List Char) : Json × Option (List Char) :=
  match fuel with
  | 0 => (.torn, none)
  | fuel + 1 =>
    match skipGap cs with
    | [] => (.torn, none)
    | '"' :: cs => string cs
    | '[' :: cs =>
      match skipGap cs with
      | ']' :: cs => within depth (.arr []) (some cs)
      | cs => let (items, rest) := items fuel (depth - 1) cs; within depth (.arr items) rest
    | '{' :: cs =>
      match skipGap cs with
      | '}' :: cs => within depth (.obj []) (some cs)
      | cs => let (ms, rest) := members fuel (depth - 1) cs; within depth (.obj ms) rest
    | '-' :: cs => number true cs
    | 'n' :: cs => word ['u', 'l', 'l'] .null cs
    | 't' :: cs => word ['r', 'u', 'e'] (.bool true) cs
    | 'f' :: cs => word ['a', 'l', 's', 'e'] (.bool false) cs
    | cs => number false cs

/-- One or more items and the closing bracket. -/
def items (fuel depth : Nat) (cs : List Char) : List Json × Option (List Char) :=
  match fuel with
  | 0 => ([.torn], none)
  | fuel + 1 =>
    match value fuel depth cs with
    | (j, none) => ([j], none)
    | (j, some rest) =>
      match skipGap rest with
      | ',' :: cs => let (js, rest) := items fuel depth cs; (j :: js, rest)
      | ']' :: cs => ([j], some cs)
      | _ => ([j, .torn], none)

/-- One or more members and the closing brace. A text that is torn where a name should stand
ends in a member without a name. -/
def members (fuel depth : Nat) (cs : List Char) : List (String × Json) × Option (List Char) :=
  match fuel with
  | 0 => ([("", .torn)], none)
  | fuel + 1 =>
    match skipGap cs with
    | '"' :: cs =>
      match string cs with
      | (.str name, some rest) =>
        match skipGap rest with
        | ':' :: cs =>
          match value fuel depth cs with
          | (j, none) => ([(name, j)], none)
          | (j, some rest) =>
            match skipGap rest with
            | ',' :: cs => let (ms, rest) := members fuel depth cs; ((name, j) :: ms, rest)
            | '}' :: cs => ([(name, j)], some cs)
            | _ => ([(name, j), ("", .torn)], none)
        | _ => ([(name, .torn)], none)
      | _ => ([("", .torn)], none)
    | _ => ([("", .torn)], none)

end

/-- A text read as one JSON value. -/
structure Document where
  value : Json
  /-- Whether nothing but blanks follows the value. -/
  complete : Bool

/-- Reads a text. -/
def Document.ofText (s : String) : Document :=
  let cs := s.toList
  match Json.value (2 * cs.length + 2) maxDepth cs with
  | (j, some rest) => ⟨j, (skipGap rest).isEmpty⟩
  | (j, none) => ⟨j, false⟩

end Cityscape.Json
