import TuringLowering.Cell.Display

/-!
This module contains what a requested transition reads and what it writes.
-/

namespace TuringLowering

inductive Pattern where
  | cell (c : Cell)
  | oneOf (cells : List Cell)
  /-- Every symbol that nothing else in the state covers. -/
  | any
deriving DecidableEq

namespace Pattern

def ofText (text : String) : Pattern := .oneOf (Cell.ofText text)

def display : Pattern → String
  | .cell c => c.display
  | .oneOf cells => "[" ++ Cell.displayAll cells ++ "]"
  | .any => braced "*"

/-- The cells a pattern stands for if `rest` are those that nothing else covers. -/
def cells (rest : List Cell) : Pattern → List Cell
  | .cell c => [c]
  | .oneOf cells => cells
  | .any => rest

end Pattern

inductive JointPattern where
  | any
  | tapes (patterns : List Pattern)
deriving DecidableEq

namespace JointPattern

def display : JointPattern → String
  | .any => braced "*"
  | .tapes patterns => Cell.displayJoint (patterns.map Pattern.display)

def perTape (count : Nat) : JointPattern → List Pattern
  | .any => List.replicate count .any
  | .tapes patterns => patterns

end JointPattern

inductive Writing where
  | put (c : Cell)
  | keep
deriving DecidableEq

namespace Writing

def onto : Writing → Cell → Cell
  | .put c, _ => c
  | .keep, read => read

def ontoAll (writes : List Writing) (reads : List Cell) : List Cell :=
  List.zipWith onto writes reads

end Writing

end TuringLowering
