import Cityscape.Text.Percent
import Cityscape.Text.Segments

/-!
# `Yaml`: the part of YAML that configurations are written in

A document is a scalar, a block mapping or a block sequence, nested by indentation; inside a
line, values may be quoted or written as flow collections. Comments, blank lines and a document
marker at the start are passed over. Texts that need more of YAML than this (anchors, tags,
several documents, block scalars) are not read.
-/

namespace Cityscape

/-- A YAML value. The entries of a mapping keep their order and repeated keys. -/
inductive Yaml where
  /-- A scalar; `plain` tells that it is not quoted. -/
  | scalar (text : String) (plain : Bool)
  | sequence (items : List Yaml)
  | mapping (entries : List (String × Yaml))

namespace Yaml

/-- The scalar that stands where nothing is written. -/
def nothing : Yaml := .scalar "" true

/-- A line: how far it is indented and what it says. -/
structure Line where
  indent : Nat
  text : List Char

/-! ## Lines -/

/-- Whether a character separates words. -/
def isGap (c : Char) : Bool := c = ' ' || c = '\t'

/-- The text without the gaps at its start. -/
def dropGaps (cs : List Char) : List Char := cs.dropWhile isGap

/-- Whether nothing but a comment follows. -/
def isRest (cs : List Char) : Bool :=
  match cs with
  | [] => true
  | c :: _ => isGap c && (match dropGaps cs with | [] => true | c :: _ => c = '#')

/-- The lines of a text; a carriage return before the line feed belongs to the line end. -/
def rawLines (cs : List Char) : List (List Char) :=
  (Text.pieces '\n' cs).map fun l => if l.getLast? = some '\r' then l.dropLast else l

/-- A line without its indentation, unless it is blank or a comment. -/
def Line.ofChars? (cs : List Char) : Option Line :=
  let text := cs.dropWhile (· = ' ')
  match dropGaps text with
  | [] => none
  | '#' :: _ => none
  | _ => some ⟨cs.length - text.length, text⟩

/-- Whether a line marks the start of a document. -/
def isMarker : List Char → Bool
  | '-' :: '-' :: '-' :: rest => isRest rest
  | _ => false

/-- The lines that say something; a byte order mark and a document marker at the start do
not count. -/
def linesOf (s : String) : List Line :=
  let cs := s.toList
  let cs := if cs.head? = some '\uFEFF' then cs.tail else cs
  match (rawLines cs).filterMap Line.ofChars? with
  | l :: ls => if l.indent = 0 ∧ isMarker l.text then ls else l :: ls
  | [] => []

/-! ## Scalars -/

/-- The number of hexadecimal digits that follow an escape. -/
def escapeDigits : Char → Option Nat
  | 'x' => some 2
  | 'u' => some 4
  | 'U' => some 8
  | _ => none

/-- The character that a short escape stands for. -/
def shortEscape : Char → Option Char
  | '0' => some '\x00'
  | 'a' => some '\x07'
  | 'b' => some '\x08'
  | 't' => some '\t'
  | '\t' => some '\t'
  | 'n' => some '\n'
  | 'v' => some '\x0B'
  | 'f' => some '\x0C'
  | 'r' => some '\r'
  | 'e' => some '\x1B'
  | ' ' => some ' '
  | '"' => some '"'
  | '/' => some '/'
  | '\\' => some '\\'
  | 'N' => some '\u0085'
  | '_' => some '\u00A0'
  | 'L' => some '\u2028'
  | 'P' => some '\u2029'
  | _ => none

/-- The number written in hexadecimal digits. -/
def hexNumber? (cs : List Char) : Option Nat :=
  cs.foldlM (fun n c => (Text.hexDigit? c).map (16 * n + ·)) 0

/-- The character with the given number. -/
def charOf? (n : Nat) : Option Char := if n.isValidChar then some (.ofNat n) else none

/-- A double-quoted scalar behind its opening quote, and what follows it. `skip` characters
belong to an escape already read. -/
def doubleQuoted (skip : Nat) : List Char → Option (List Char × List Char)
  | [] => none
  | c :: cs =>
    match skip, c with
    | skip + 1, _ => doubleQuoted skip cs
    | 0, '"' => some ([], cs)
    | 0, '\\' =>
      match cs with
      | [] => none
      | e :: rest =>
        match escapeDigits e, shortEscape e with
        | some n, _ =>
          if rest.length < n then none
          else do
            let x ← charOf? (← hexNumber? (rest.take n))
            let (text, rest) ← doubleQuoted (n + 1) cs
            return (x :: text, rest)
        | none, some x => (doubleQuoted 1 cs).map fun (text, rest) => (x :: text, rest)
        | none, none => none
    | 0, c => (doubleQuoted 0 cs).map fun (text, rest) => (c :: text, rest)

/-- A single-quoted scalar behind its opening quote, and what follows it; `open_` tells that the
last character was the first of two quotes. -/
def singleQuoted (open_ : Bool) : List Char → Option (List Char × List Char)
  | [] => if open_ then some ([], []) else none
  | c :: cs =>
    if c = '\'' then
      if open_ then (singleQuoted false cs).map fun (text, rest) => ('\'' :: text, rest)
      else singleQuoted true cs
    else if open_ then some ([], c :: cs)
    else (singleQuoted false cs).map fun (text, rest) => (c :: text, rest)

/-- Whether a character means something at the start of a plain scalar. -/
def isIndicator (c : Char) : Bool := ",[]\x7b\x7d#&*!|>'\"%@\x60".toList.contains c

/-- Whether a character ends a plain scalar of a flow collection. -/
def isFlowEnd (c : Char) : Bool := ",[]\x7b\x7d".toList.contains c

/-- Whether a plain scalar can start here. -/
def startsPlain (flow : Bool) : List Char → Bool
  | [] => false
  | c :: cs =>
    if c = '-' || c = '?' || c = ':' then
      match cs with
      | [] => false
      | d :: _ => !isGap d && !(flow && isFlowEnd d)
    else !isIndicator c && !isGap c

/-- The characters of a plain scalar and what follows it. It ends before a colon that ends a
key, before a comment, and in flow collections before their punctuation. -/
def plainRun (flow : Bool) : List Char → List Char × List Char
  | [] => ([], [])
  | c :: cs =>
    let stops :=
      if c = ':' then
        match cs with
        | [] => true
        | d :: _ => isGap d || (flow && isFlowEnd d)
      else if isGap c then (match cs with | [] => false | d :: _ => d = '#')
      else flow && isFlowEnd c
    if stops then ([], c :: cs)
    else let (run, rest) := plainRun flow cs; (c :: run, rest)

/-- The text without the gaps at its end. -/
def dropLastGaps (cs : List Char) : List Char := (cs.reverse.dropWhile isGap).reverse

/-- A scalar at the start of a text, and what follows it. -/
def scalarAt (flow : Bool) (cs : List Char) : Option (Yaml × List Char) :=
  match cs with
  | '"' :: cs => (doubleQuoted 0 cs).map fun (t, rest) => (.scalar (String.ofList t) false, rest)
  | '\'' :: cs =>
    (singleQuoted false cs).map fun (t, rest) => (.scalar (String.ofList t) false, rest)
  | cs =>
    if startsPlain flow cs then
      let (run, rest) := plainRun flow cs
      some (.scalar (String.ofList (dropLastGaps run)) true, rest)
    else none

/-! ## Flow collections -/

mutual

/-- A value inside a line, and what follows it. -/
def flowValue (fuel : Nat) (flow : Bool) (cs : List Char) : Option (Yaml × List Char) :=
  match fuel with
  | 0 => none
  | fuel + 1 =>
    match cs with
    | '[' :: cs => (flowItems fuel (dropGaps cs)).map fun (items, rest) => (.sequence items, rest)
    | '{' :: cs =>
      (flowEntries fuel (dropGaps cs)).map fun (entries, rest) => (.mapping entries, rest)
    | cs => scalarAt flow cs

/-- The items of a flow sequence and its closing bracket. -/
def flowItems (fuel : Nat) (cs : List Char) : Option (List Yaml × List Char) :=
  match fuel with
  | 0 => none
  | fuel + 1 =>
    match cs with
    | ']' :: cs => some ([], cs)
    | cs => do
      let (item, rest) ← flowValue fuel true cs
      match dropGaps rest with
      | ',' :: cs => (flowItems fuel (dropGaps cs)).map fun (items, rest) => (item :: items, rest)
      | ']' :: cs => some ([item], cs)
      | _ => none

/-- The entries of a flow mapping and its closing brace. -/
def flowEntries (fuel : Nat) (cs : List Char) : Option (List (String × Yaml) × List Char) :=
  match fuel with
  | 0 => none
  | fuel + 1 =>
    match cs with
    | '}' :: cs => some ([], cs)
    | cs => do
      let (key, rest) ← scalarAt true cs
      let .scalar key _ := key | none
      let (value, rest) ← match dropGaps rest with
        | ':' :: cs =>
          match dropGaps cs with
          | ',' :: _ => some (nothing, dropGaps cs)
          | '}' :: _ => some (nothing, dropGaps cs)
          | cs => flowValue fuel true cs
        | rest => some (nothing, rest)
      match dropGaps rest with
      | ',' :: cs =>
        (flowEntries fuel (dropGaps cs)).map fun (entries, rest) => ((key, value) :: entries, rest)
      | '}' :: cs => some ([(key, value)], cs)
      | _ => none

end

/-- The value that fills the rest of a line. -/
def inlineValue (cs : List Char) : Option Yaml := do
  let (value, rest) ← flowValue (cs.length + 1) false cs
  if isRest rest then some value else none

/-! ## Blocks -/

/-- The key at the start of a line and the text behind its colon. -/
def keyAt (cs : List Char) : Option (String × List Char) :=
  match scalarAt false cs with
  | some (.scalar key _, rest) =>
    match dropGaps rest with
    | ':' :: cs =>
      match cs with
      | [] => some (key, [])
      | c :: _ => if isGap c then some (key, cs) else none
    | _ => none
  | _ => none

/-- What follows the dash of a sequence item. -/
def itemAt : List Char → Option (List Char)
  | ['-'] => some []
  | '-' :: c :: cs => if isGap c then some (c :: cs) else none
  | _ => none

/-- Whether only a comment stands behind a key or a dash. -/
def isBare (cs : List Char) : Bool :=
  match dropGaps cs with
  | [] => true
  | c :: _ => c = '#'

mutual

/-- The block at the start of some lines, and the lines behind it. -/
def block (fuel : Nat) (ls : List Line) : Option (Yaml × List Line) :=
  match fuel, ls with
  | 0, _ => none
  | _, [] => some (nothing, [])
  | fuel + 1, l :: ls =>
    if (itemAt l.text).isSome then
      (blockItems fuel l.indent (l :: ls)).map fun (items, rest) => (.sequence items, rest)
    else if (keyAt l.text).isSome then
      (blockEntries fuel l.indent (l :: ls)).map fun (entries, rest) => (.mapping entries, rest)
    else (inlineValue l.text).map fun value => (value, ls)

/-- The value behind a key or a dash at an indentation, and the lines behind it. A sequence
below a key need not be indented. -/
def nested (fuel : Nat) (indent : Nat) (below : Bool) (cs : List Char) (ls : List Line) :
    Option (Yaml × List Line) :=
  match fuel with
  | 0 => none
  | fuel + 1 =>
    if isBare cs then
      match ls with
      | [] => some (nothing, [])
      | l :: _ =>
        if indent < l.indent ∨ (below ∧ l.indent = indent ∧ (itemAt l.text).isSome) then
          block fuel ls
        else some (nothing, ls)
    else (inlineValue (dropGaps cs)).map fun value => (value, ls)

/-- The items of a block sequence at an indentation, and the lines behind it. What follows a
dash may be a block of its own. -/
def blockItems (fuel : Nat) (indent : Nat) (ls : List Line) : Option (List Yaml × List Line) :=
  match fuel, ls with
  | 0, _ => none
  | _, [] => some ([], [])
  | fuel + 1, l :: ls =>
    if l.indent < indent then some ([], l :: ls)
    else if indent < l.indent then none
    else
      match itemAt l.text with
      | none => some ([], l :: ls)
      | some cs => do
        let text := dropGaps cs
        let (item, rest) ←
          if !isBare cs && ((itemAt text).isSome || (keyAt text).isSome) then
            block fuel (⟨indent + (l.text.length - text.length), text⟩ :: ls)
          else nested fuel indent false cs ls
        let (items, rest) ← blockItems fuel indent rest
        return (item :: items, rest)

/-- The entries of a block mapping at an indentation, and the lines behind it. -/
def blockEntries (fuel : Nat) (indent : Nat) (ls : List Line) :
    Option (List (String × Yaml) × List Line) :=
  match fuel, ls with
  | 0, _ => none
  | _, [] => some ([], [])
  | fuel + 1, l :: ls =>
    if l.indent < indent then some ([], l :: ls)
    else if indent < l.indent then none
    else do
      let (key, cs) ← keyAt l.text
      let (value, rest) ← nested fuel indent true cs ls
      let (entries, rest) ← blockEntries fuel indent rest
      return ((key, value) :: entries, rest)

end

/-- The document that a text holds. -/
def ofText? (s : String) : Option Yaml :=
  let ls := linesOf s
  match block (4 * s.length + 4) ls with
  | some (value, []) => some value
  | _ => none

end Yaml

end Cityscape
