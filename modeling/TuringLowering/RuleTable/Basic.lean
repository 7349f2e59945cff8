import TuringLowering.Action
import TuringLowering.Alphabet
import TuringLowering.Error
import TuringLowering.Pattern

/-!
This module contains the rules of one state: exact rules, groups of symbols with one outcome, and a
wildcard for all other symbols. A symbol has at most one rule, and none is added to a state that has
a wildcard.
-/

namespace TuringLowering

structure RuleGroup where
  cells : List Cell
  outcome : Outcome
  /-- What the author wrote for all tapes, if the group comes from such a request. -/
  source : Option JointPattern
deriving DecidableEq

structure RuleTable where
  exact : List (Cell × Outcome) := []
  groups : List RuleGroup := []
  wildcard : Option Outcome := none
deriving DecidableEq

namespace RuleTable

def empty : RuleTable := {}

def isEmpty (t : RuleTable) : Bool :=
  t.exact.isEmpty && t.groups.isEmpty && t.wildcard.isNone

def hasWildcard (t : RuleTable) : Bool := t.wildcard.isSome

/-- The outcome of the exact rule or of the group that a symbol belongs to. -/
def listed? (t : RuleTable) (c : Cell) : Option Outcome :=
  match t.exact.find? (·.1 = c) with
  | some rule => some rule.2
  | none => (t.groups.find? (c ∈ ·.cells)).map RuleGroup.outcome

def covers (t : RuleTable) (c : Cell) : Bool := (t.listed? c).isSome

def lookup (t : RuleTable) (c : Cell) : Option Outcome := t.listed? c <|> t.wildcard

def uncovered (t : RuleTable) (candidates : List Cell) : List Cell :=
  candidates.filter fun c => (t.lookup c).isNone

def checkCell (t : RuleTable) (alphabet : Alphabet) (c : Cell) : Except RuleError Unit :=
  if t.hasWildcard then .error (.afterWildcard c)
  else if t.covers c then .error (.taken c)
  else if alphabet.accepts c then .ok ()
  else .error (.foreignSymbol c)

/-- Checks the symbols of a group in order; `seen` are those before them. -/
def checkCells (t : RuleTable) (alphabet : Alphabet) (seen : List Cell) :
    List Cell → Except RuleError Unit
  | [] => .ok ()
  | c :: cs => do
    t.checkCell alphabet c
    if c ∈ seen then .error (.taken c)
    else checkCells t alphabet (c :: seen) cs

def addExact (cell : Cell) (outcome : Outcome) (alphabet : Alphabet) (t : RuleTable) :
    Except RuleError RuleTable := do
  t.checkCell alphabet cell
  return { t with exact := t.exact ++ [(cell, outcome)] }

/-- Adds all symbols of a group or none. -/
def addGroup (group : RuleGroup) (alphabet : Alphabet) (t : RuleTable) :
    Except RuleError RuleTable := do
  t.checkCells alphabet [] group.cells
  return { t with groups := t.groups ++ [group] }

def addWildcard (outcome : Outcome) (t : RuleTable) : Except RuleError RuleTable :=
  if t.hasWildcard then .error .secondWildcard
  else .ok { t with wildcard := some outcome }

def mapNames (f : String → String) (t : RuleTable) : RuleTable where
  exact := t.exact.map fun (c, o) => (c.mapNames f, o.mapNames f)
  groups := t.groups.map fun g =>
    { g with cells := g.cells.map (Cell.mapNames f), outcome := g.outcome.mapNames f }
  wildcard := t.wildcard.map (Outcome.mapNames f)

end RuleTable

end TuringLowering
