import TuringLowering.Draft.Directive
import TuringLowering.Verdict

/-!
This module contains the two passes that keep the segments of simulated tapes in shape: the one that
lays them out before the first step, and the one that lengthens them after each step. The shared tape
reads: start marker, name of the current state, one segment for each tape, end marker.
-/

namespace TuringLowering.Segment

/-- The state in which a simulated step begins, with the head on the name of the current state. -/
def stepState (g : Guard) : String := g.text ++ "_process"

/-- The state in which the segments are checked after a simulated step. -/
def growState (g : Guard) : String := g.text ++ "_doEmptyCellInsertions"

def growPart (g : Guard) (part : String) : String := growState g ++ "-" ++ part

def layoutPart (g : Guard) (part : String) : String := g.text ++ "_init_" ++ part

/-- Turns an input into the first segment, adds empty ones for the other tapes, and tags heads. -/
def layout (g : Guard) (start first : String) (count : Nat) (declared : List Cell) :
    List Directive :=
  let part := layoutPart g
  [ .gadget start .any (.markFirst .start) (part "insertLeftBound"),
    .gadget (part "insertLeftBound") .any (.insertAfter .start .boundLeft) (part "insertEmpty"),
    -- The empty cell after the start marker is for the name of the current state.
    .gadget (part "insertEmpty") .any (.insertAfter .start .blank) (part "findEnd"),
    .replace (part "findEnd") .blank .blank .right (part "afterEnd"),
    .pass (part "findEnd") .any .right (part "findEnd"),
    -- Each of the other tapes takes three cells.
    .replace (part "afterEnd") .blank .boundRight (.rightBy ((count - 1) * 3 + 1))
      (part "afterLast"),
    .replace (part "afterLast") .blank .afterLast .left (part "atBoundR"),
    .replace (part "atBoundR") .blank .boundRight .left (part "atExtraHead"),
    .replace (part "atBoundR") .boundRight .boundRight .left (part "findStart"),
    .replace (part "atExtraHead") .blank Cell.blank.tagged .left (part "atBoundL"),
    .replace (part "atBoundL") .blank .boundLeft .left (part "atBoundR"),
    .replace (part "findStart") .start .start .right (part "atStart"),
    .pass (part "findStart") .any .left (part "findStart"),
    .replace (part "atStart") .blank (.state first) (.rightBy 2) (part "markFirstHead") ]
  ++ declared.map fun c =>
    .replace (part "markFirstHead") c c.tagged (.leftBy 2) (stepState g)

/-- Gives a new cell to each segment whose head stands on its boundary, then takes up the state. -/
def growth (g : Guard) (alphabet : Alphabet) : List Directive :=
  let part := growPart g
  let onBound := Cell.boundRight.tagged
  let content := alphabet.declared ++ alphabet.heads ++ [.boundLeft, .boundRight]
  [ .replace (growState g) .boundLeft .boundLeft .right (part "search"),
    .pass (part "search") (.oneOf content) .right (part "search"),
    .replace (part "search") .afterLast .afterLast .left (part "done"),
    .replace (part "search") onBound onBound .right (part "findToGrab"),
    .pass (part "findToGrab") (.oneOf (content ++ [onBound])) .right (part "findToGrab"),
    .replace (part "findToGrab") .afterLast .afterLast .stay (part "foundToGrab"),
    .gadget (part "foundToGrab") .any (.insertAfter onBound .boundRight) (part "justInserted"),
    .pass (part "justInserted") (.oneOf [.boundLeft, .afterLast]) (.leftBy 2)
      (part "nowMakeEmptyHead"),
    .replace (part "nowMakeEmptyHead") onBound Cell.blank.tagged .left (part "done"),
    .pass (part "done") (.oneOf content) .left (part "done"),
    .replace (part "done") onBound onBound .right (part "findToGrab") ]
  ++ Verdict.all.map fun v =>
    .replace (part "done") (.state v.state) (.state v.state) .stay v.state

end TuringLowering.Segment
