import TuringLowering.Draft.Transition
import TuringLowering.Gadget

/-!
This module contains the lowering of gadgets. Without its feature, a gadget is spelled out as a chain
of states with the same effect on the tape.
-/

namespace TuringLowering

/-- Something to be done on one tape: a plain transition or a gadget. -/
inductive Directive where
  | transition (origin : String) (read : Pattern) (write : Writing) (move : Move) (next : String)
  | gadget (origin : String) (read : Pattern) (gadget : Gadget) (next : String)
deriving DecidableEq

namespace Directive

abbrev replace (origin : String) (read write : Cell) (move : Move) (next : String) : Directive :=
  .transition origin (.cell read) (.put write) move next

/-- Leaves the symbol read as it is. -/
abbrev pass (origin : String) (read : Pattern) (move : Move) (next : String) : Directive :=
  .transition origin read .keep move next

end Directive

namespace Build

def addAction (origin : String) (read : Pattern) (action : Action) (next : String) :
    Build Unit := do
  let outcome := Outcome.single action next
  let grouped ← enabled .multiMatch
  match read with
  | .cell c => addRule origin (RuleTable.addExact c outcome)
  | .oneOf cells => addRules origin cells grouped outcome (fun _ => outcome) none
  | .any =>
    if ← enabled .wildcard then
      addRule origin fun _ => RuleTable.addWildcard outcome
    else
      addRules origin ((← get).uncovered origin) grouped outcome (fun _ => outcome) none

/-- Each symbol is carried by a state of its own, which pastes it. -/
def shiftChain (origin : String) (read : Pattern) (move : Move) (next : String) :
    Build Unit := do
  (read.cells ((← get).uncovered origin)).forM fun symbol => do
    let (paste, isNew) ← chain ⟨.paste, [symbol.display, move.display, next]⟩
      ["paste" ++ symbol.display, move.display, next]
    if isNew then
      transition paste .any (.put symbol) move next
    transition origin (.cell symbol) (.put .blank) .right paste

def shift (origin : String) (read : Pattern) (move : Move) (next : String) : Build Unit := do
  if ← enabled .gadgetShift then
    addAction origin read (.shift move) next
  else
    shiftChain origin read move next

def seekEnd (state next : String) : Build Unit := do
  transition state (.cell .blank) (.put .blank) .left next
  transition state .any .keep .right state

/-- The content is carried to the right, its last cell first, until an empty cell is reached. -/
def markFirstChain (origin : String) (read : Pattern) (marker : Cell) (next : String) :
    Build Unit := do
  let (base, isNew) ← chain ⟨.markFirst, [origin, read.display, marker.display, next]⟩
    ["firstCellMarker", origin, read.display]
  if isNew then
    let findEnd := base ++ "_findEnd"
    let doShifts := base ++ "_doShifts"
    transition origin read .keep .right findEnd
    seekEnd findEnd doShifts
    transition doShifts (.cell .blank) (.put marker) .right next
    shift doShifts .any (.leftBy 2) doShifts

/-- The content is carried to the right, its last cell first, until the marker is reached. -/
def insertAfterChain (origin : String) (read : Pattern) (marker insert : Cell) (next : String) :
    Build Unit := do
  let (base, isNew) ← chain
    ⟨.insertAfter, [origin, read.display, marker.display, insert.display, next]⟩
    ["afterCellMarker", origin, read.display]
  if isNew then
    let findEnd := base ++ "_findEnd"
    let doShifts := base ++ "_doShifts"
    let doInsert := base ++ "_doInsert"
    transition origin read .keep .right findEnd
    seekEnd findEnd doShifts
    transition doShifts (.cell marker) (.put marker) .right doInsert
    shift doShifts .any (.leftBy 2) doShifts
    transition doInsert (.cell .blank) (.put insert) .right next

def gadget (origin : String) (read : Pattern) (gadget : Gadget) (next : String) :
    Build Unit := do
  if ← enabled gadget.kind.feature then
    addAction origin read gadget.action next
  else
    match gadget with
    | .shift move => shiftChain origin read move next
    | .markFirst marker => markFirstChain origin read marker next
    | .insertAfter marker insert => insertAfterChain origin read marker insert next

def directive : Directive → Build Unit
  | .transition origin read write move next => transition origin read write move next
  | .gadget origin read g next => gadget origin read g next

def directives (ds : List Directive) : Build Unit := ds.forM directive

end Build

end TuringLowering
