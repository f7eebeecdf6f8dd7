import Cityscape.Sorted
import Cityscape.Number.Binary64

/-!
# `Json`: JSON values as they stand in a text

Numbers without fraction and exponent are integers as long as they fit 64 bits, all others are
doubles. An object keeps its members in the order of the text and keeps repeated names, because
a record with a repeated field is refused while a map takes the last one.

Two more forms describe texts that are not quite JSON, so that a reader which stops at the
first fault can be described as a function of one tree: `unfit` is a well-formed literal that
no value can hold, and `torn` is the place where the text stops being JSON. A torn part is
always the last part of its tree.
-/

namespace Cityscape

inductive Json where
  | null
  | bool (b : Bool)
  | int (n : Int)
  | float (x : Binary64)
  | str (s : String)
  | arr (items : List Json)
  | obj (members : List (String × Json))
  | unfit
  | torn
deriving Inhabited

namespace Json

mutual

/-- Whether the text stopped being JSON inside this value. -/
def isTorn : Json → Bool
  | .torn => true
  | .arr items => anyTorn items
  | .obj members => anyTornMember members
  | _ => false

/-- Whether one of the items is torn. -/
def anyTorn : List Json → Bool
  | [] => false
  | j :: js => j.isTorn || anyTorn js

/-- Whether one of the member values is torn. -/
def anyTornMember : List (String × Json) → Bool
  | [] => false
  | (_, j) :: ms => j.isTorn || anyTornMember ms

end

mutual

/-- How deeply arrays and objects are nested. -/
def depth : Json → Nat
  | .arr items => depthItems items + 1
  | .obj members => depthMembers members + 1
  | _ => 0

/-- The greatest depth among the items. -/
def depthItems : List Json → Nat
  | [] => 0
  | j :: js => max j.depth (depthItems js)

/-- The greatest depth among the member values. -/
def depthMembers : List (String × Json) → Nat
  | [] => 0
  | (_, j) :: ms => max j.depth (depthMembers ms)

end

mutual

/-- The value with the members of every object in ascending order of their names; of members
with one name the last stays. -/
def canonical : Json → Json
  | .arr items => .arr (canonicalItems items)
  | .obj members => .obj (Sorted.ofList (canonicalMembers members) : SortedMap String Json).toList
  | j => j

/-- The items in canonical form. -/
def canonicalItems : List Json → List Json
  | [] => []
  | j :: js => j.canonical :: canonicalItems js

/-- The members with values in canonical form. -/
def canonicalMembers : List (String × Json) → List (String × Json)
  | [] => []
  | (k, j) :: ms => (k, j.canonical) :: canonicalMembers ms

end

/-- The value of the last member called `name`, or null. -/
def member (name : String) : Json → Json
  | .obj members => (members.reverse.lookup name).getD .null
  | _ => .null

end Json

end Cityscape
