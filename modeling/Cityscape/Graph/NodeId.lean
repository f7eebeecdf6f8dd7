import Cityscape.Sorted

/-!
# `NodeId`: identifiers of graph nodes

Every node of the graph has a number of its own, handed out once and never again. Numbers have
64 bits.
-/

namespace Cityscape

/-- The number of a node. -/
structure NodeId where
  val : UInt64
deriving DecidableEq, Inhabited

namespace NodeId

instance (n : Nat) : OfNat NodeId n := ⟨⟨.ofNat n⟩⟩

instance : Ord NodeId := ⟨compareOn val⟩

instance : Std.TransOrd NodeId := inferInstanceAs (Std.TransCmp (compareOn val))

instance : Std.LawfulEqOrd NodeId where
  compare_self := @Std.ReflCmp.compare_self _ (compareOn val) _
  eq_of_compare := by
    intro a b h
    have hv : compare a.val b.val = .eq := h
    exact congrArg mk (Std.LawfulEqCmp.eq_of_compare hv)

/-- The smaller number comes first. -/
theorem compare_eq_lt {a b : NodeId} : compare a b = .lt ↔ a.val < b.val := by
  change compare a.val b.val = .lt ↔ _
  exact Std.compare_eq_lt

/-- The decimal digits of the number. -/
def text (id : NodeId) : String := String.ofList (Nat.toDigits 10 id.val.toNat)

end NodeId

end Cityscape
