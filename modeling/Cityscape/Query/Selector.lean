import Cityscape.Fault
import Cityscape.Text.Blank
import Cityscape.Text.Segments

/-!
# `Selector`: which commits a landscape shows

A selector is the newest commit of every repository, one commit, or the union of two.
-/

namespace Cityscape

/-- The commits of a landscape. -/
inductive Selector where
  | latest
  | commit (hash : String)
  | compare (first second : String)
deriving DecidableEq

namespace Selector

/-- Reads `h` or `h1-h2`; blanks around it do not count. -/
def ofText (s : String) : Except Fault Selector :=
  let cs := Text.trim s.toList
  if cs.isEmpty then .error .emptySelector
  else
    match Text.splitFirst '-' cs with
    | none => .ok (.commit (String.ofList cs))
    | some (first, second) =>
      if first.isEmpty ∨ second.isEmpty then .error (.malformedRange (String.ofList cs))
      else .ok (.compare (String.ofList first) (String.ofList second))

/-- The hashes that are named, each once. -/
def hashes : Selector → List String
  | latest => []
  | commit hash => [hash]
  | compare first second => if first = second then [first] else [first, second]

end Selector

end Cityscape
