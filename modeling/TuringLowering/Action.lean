import TuringLowering.Cell.Display
import TuringLowering.Tape.Basic

/-!
This module contains what a transition does: one action on each tape and the state that follows.
-/

namespace TuringLowering

inductive Action where
  | write (cell : Cell) (move : Move)
  | preserve (move : Move)
  /-- Carries the cell under the head one cell to the right, then moves. -/
  | shift (andThen : Move)
  /-- Carries the cells up to the next empty one to the right and writes a marker before them. -/
  | markFirst (marker : Cell)
  /-- Carries the cells after the nearest marker to the right and writes a cell into the gap. -/
  | insertAfter (marker insert : Cell)
deriving DecidableEq

namespace Tape

def seekBlank (t : Tape) : Tape := go (t.after.length + 1) t
where
  go : Nat → Tape → Tape
    | 0, t => t
    | n + 1, t => if t.focus = .blank then t else go n (t.move .right)

/-- Goes to the last cell before the next empty one right of the head. -/
def seekLastWritten (t : Tape) : Tape := (t.move .right).seekBlank.move .left

def carryRight (t : Tape) : Tape := ((t.write .blank).move .right).write t.focus

/-- Carries the cell under the head to the right and goes to the cell before it. -/
def carryBack (t : Tape) : Tape := t.carryRight.move (.leftBy 2)

/--
Carries cells to the right, going left, until `stop` is under the head. The flag is false when the
first cell of the tape was carried and `stop` was not found.
-/
def carryUntil (stop : Cell) (t : Tape) : Bool × Tape := go t.position t
where
  go : Nat → Tape → Bool × Tape
    | 0, t => if t.focus = stop then (true, t) else (false, t.carryBack)
    | n + 1, t => if t.focus = stop then (true, t) else go n t.carryBack

end Tape

namespace Action

def apply : Action → Tape → Tape
  | .write cell m, t => (t.write cell).move m
  | .preserve m, t => t.move m
  | .shift m, t => t.carryRight.move m
  | .markFirst marker, t =>
    ((t.seekLastWritten.carryUntil .blank).2.write marker).move .right
  | .insertAfter marker insert, t =>
    match t.seekLastWritten.carryUntil marker with
    | (true, t) => ((t.move .right).write insert).move .right
    | (false, t) => t

def mapNames (f : String → String) : Action → Action
  | .write cell m => .write (cell.mapNames f) m
  | .markFirst marker => .markFirst (marker.mapNames f)
  | .insertAfter marker insert => .insertAfter (marker.mapNames f) (insert.mapNames f)
  | action => action

def displayMove (m : Move) : String := "[move " ++ m.display ++ "]"

def display : Action → String
  | .write cell m => cell.display ++ " " ++ displayMove m
  | .preserve m => "[no change] " ++ displayMove m
  | .shift m =>
    Cell.blank.display ++ " " ++ displayMove .right ++ " [paste matched symbol] " ++ displayMove m
  | .markFirst marker =>
    "[insert " ++ marker.display ++ ", shifting to the next empty cell, then move 1R]"
  | .insertAfter marker insert =>
    "[insert " ++ insert.display ++ " after " ++ marker.display ++ ", then move 1R]"

end Action

structure Outcome where
  actions : List Action
  next : String
deriving DecidableEq

namespace Outcome

def single (action : Action) (next : String) : Outcome := ⟨[action], next⟩

/-- Each action is done on its own tape; a tape without an action stays as it is. -/
def applyAll : List Action → List Tape → List Tape
  | a :: as, t :: ts => a.apply t :: applyAll as ts
  | _, ts => ts

def apply (o : Outcome) (tapes : List Tape) : List Tape := applyAll o.actions tapes

def mapNames (f : String → String) (o : Outcome) : Outcome :=
  ⟨o.actions.map (Action.mapNames f), f o.next⟩

def display (o : Outcome) : String :=
  let actions :=
    match o.actions with
    | [action] => action.display
    | actions => "<" ++ joined ", " (actions.map Action.display) ++ ">"
  actions ++ " [next state: " ++ o.next ++ "]"

end Outcome

end TuringLowering
