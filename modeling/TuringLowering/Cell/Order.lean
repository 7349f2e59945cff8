import TuringLowering.Cell.Basic

/-!
This module contains the total order on cells: by content first, where marks come in the order of
their constructors and before all combinations, and a bare cell before its tagged variant.
-/

namespace TuringLowering.Cell

mutual

def order : Cell → Cell → Ordering
  | .atom m h, .atom n k => (compare m n).then (compare h k)
  | .atom _ _, .tuple _ _ => .lt
  | .tuple _ _, .atom _ _ => .gt
  | .tuple ps h, .tuple qs k => (orderParts ps qs).then (compare h k)

/-- Combinations are compared part by part; a shorter one comes before its extensions. -/
def orderParts : List Cell → List Cell → Ordering
  | [], [] => .eq
  | [], _ :: _ => .lt
  | _ :: _, [] => .gt
  | a :: as, b :: bs => (order a b).then (orderParts as bs)

end

instance : Ord Cell := ⟨order⟩

end TuringLowering.Cell
