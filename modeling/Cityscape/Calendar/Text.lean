import Cityscape.Calendar.Instant
import Cityscape.Text.Blank

/-!
# `Text`: instants as dates with a time and an offset

An instant is written in universal time, `2024-05-01T10:00:00Z`, with three, six or nine
digits after the point if it needs them. It is read with one or two digits in every place but
the year, with any offset of less than a day, with a sixtieth second, and with white space
between its parts. A year outside 0 to 9999 is written with a sign, and a year with a sign may
have any number of digits.
-/

namespace Cityscape.Instant

open Calendar

/-! ## Writing -/

/-- The digits of a number, with zeros before it up to the given width. -/
def padded (width n : Nat) : List Char :=
  let ds := Nat.toDigits 10 n
  List.replicate (width - ds.length) '0' ++ ds

/-- The digits of a year: four of them, and a sign outside 0 to 9999. -/
def yearDigits (year : Int) : List Char :=
  if 0 ≤ year ∧ year ≤ 9999 then padded 4 year.toNat
  else (if year < 0 then '-' else '+') :: padded 4 year.natAbs

/-- The fraction of a second in nanoseconds, with as few groups of three digits as are exact. -/
def fractionDigits (nanos : Nat) : List Char :=
  if nanos = 0 then []
  else if nanos % 1000000 = 0 then '.' :: padded 3 (nanos / 1000000)
  else if nanos % 1000 = 0 then '.' :: padded 6 (nanos / 1000)
  else '.' :: padded 9 nanos

/-- The text of an instant, in universal time. -/
def text (t : Instant) : String :=
  let (year, month, day) := ofDayNumber (t.seconds / 86400)
  let second := (t.seconds % 86400).toNat
  let leap := if 1000000000 ≤ t.nanos then 1 else 0
  String.ofList <|
    yearDigits year ++ '-' :: padded 2 month ++ '-' :: padded 2 day ++
    'T' :: padded 2 (second / 3600) ++ ':' :: padded 2 (second / 60 % 60) ++
    ':' :: padded 2 (second % 60 + leap) ++ fractionDigits (t.nanos % 1000000000) ++ ['Z']

/-! ## Reading -/

/-- The value of a decimal digit. -/
def digit? (c : Char) : Option Nat :=
  if '0' ≤ c ∧ c ≤ '9' then some (c.toNat - '0'.toNat) else none

/-- At most `width` digits at the start of a text, and what follows them. -/
def digits : Nat → List Char → List Nat × List Char
  | 0, cs => ([], cs)
  | _ + 1, [] => ([], [])
  | width + 1, c :: cs =>
    match digit? c with
    | some d => let (ds, rest) := digits width cs; (d :: ds, rest)
    | none => ([], c :: cs)

/-- The number that digits denote. -/
def ofDigits (ds : List Nat) : Nat := ds.foldl (fun n d => n * 10 + d) 0

/-- A number of one to `width` digits. -/
def number? (width : Nat) (cs : List Char) : Option (Nat × List Char) :=
  match digits width cs with
  | ([], _) => none
  | (ds, rest) => some (ofDigits ds, rest)

/-- A number of one or two digits, perhaps behind white space. -/
def twoDigits? (cs : List Char) : Option (Nat × List Char) := number? 2 (Text.trimStart cs)

/-- The text behind the given character, which may stand behind white space. -/
def after? (c : Char) (cs : List Char) : Option (List Char) :=
  match Text.trimStart cs with
  | d :: cs => if d = c then some cs else none
  | [] => none

/-- A year: one to four digits, or a sign and any number of digits. -/
def year? : List Char → Option (Int × List Char)
  | '-' :: cs => (number? cs.length cs).map fun (n, rest) => (-(n : Int), rest)
  | '+' :: cs => (number? cs.length cs).map fun (n, rest) => ((n : Int), rest)
  | cs => (number? 4 cs).map fun (n, rest) => ((n : Int), rest)

/-- The day that a date stands for, if there is such a day. -/
def date? (cs : List Char) : Option (Int × List Char) := do
  let (year, cs) ← year? (Text.trimStart cs)
  let (month, cs) ← twoDigits? (← after? '-' cs)
  let (day, cs) ← twoDigits? (← after? '-' cs)
  if 1 ≤ month ∧ month ≤ 12 ∧ 1 ≤ day ∧ day ≤ daysInMonth year month then
    return (dayNumber year month day, cs)
  else none

/-- The nanoseconds of a fraction: its first nine digits. Without a point there is none. -/
def nanos? : List Char → Option (Nat × List Char)
  | '.' :: cs =>
    match digits cs.length cs with
    | ([], _) => none
    | (ds, rest) => some (ofDigits ((ds ++ List.replicate 9 0).take 9), rest)
  | cs => some (0, cs)

/-- The second of the day and the nanoseconds within it. The sixtieth second prolongs the
second before it. -/
def time? (cs : List Char) : Option (Nat × Nat × List Char) := do
  let (hour, cs) ← twoDigits? cs
  let (minute, cs) ← twoDigits? (← after? ':' cs)
  let (second, cs) ← twoDigits? (← after? ':' cs)
  let (nanos, cs) ← nanos? cs
  if hour < 24 ∧ minute < 60 ∧ second ≤ 60 then
    let leap := if second = 60 then 1 else 0
    return (hour * 3600 + minute * 60 + (second - leap), leap * 1000000000 + nanos, cs)
  else none

/-- The minutes of an offset of two digits for the hours and two for the minutes; colons and
white space may stand between them. -/
def offsetMinutes? (cs : List Char) : Option (Nat × List Char) :=
  match cs with
  | a :: b :: cs => do
    let hours := 10 * (← digit? a) + (← digit? b)
    match cs.dropWhile fun c => c = ':' || Text.isBlank c with
    | c :: d :: rest => do
      let minutes := 10 * (← digit? c) + (← digit? d)
      if hours < 24 ∧ minutes < 60 then return (hours * 60 + minutes, rest) else none
    | _ => none
  | _ => none

/-- The offset from universal time in minutes. -/
def offset? : List Char → Option (Int × List Char)
  | '+' :: cs => (offsetMinutes? cs).map fun (n, rest) => ((n : Int), rest)
  | '-' :: cs => (offsetMinutes? cs).map fun (n, rest) => (-(n : Int), rest)
  | 'Z' :: cs => some (0, cs)
  | 'z' :: cs => some (0, cs)
  | u :: t :: c :: cs =>
    if [u, t, c].map Char.toUpper = ['U', 'T', 'C'] then some (0, cs) else none
  | _ => none

/-- The first and the last day that count as dates. -/
def dayRange : Int × Int := (dayNumber (-262143) 1 1, dayNumber 262142 12 31)

/-- Reads an instant; nothing but white space may follow it. -/
def ofText? (s : String) : Option Instant := do
  let (day, cs) ← date? s.toList
  let cs ← match cs with
    | c :: cs => if c = 'T' ∨ c = 't' ∨ c = ' ' then some cs else none
    | [] => none
  let (second, nanos, cs) ← time? cs
  let (offset, cs) ← offset? (Text.trimStart cs)
  let seconds := day * 86400 + second - offset * 60
  if (Text.trimStart cs).isEmpty ∧ dayRange.1 ≤ day ∧ day ≤ dayRange.2 ∧
      dayRange.1 ≤ seconds / 86400 ∧ seconds / 86400 ≤ dayRange.2 then
    return ⟨seconds, nanos⟩
  else none

end Cityscape.Instant
