import TuringLowering.Draft.Basic
import TuringLowering.RuleTable.Listing
import TuringLowering.Verdict

/-!
This module contains finished machines. What a machine does is defined for every state and every
cell: where it has no rule, it erases the cell, moves right and rejects.
-/

namespace TuringLowering

structure Machine where
  start : String
  states : StateTables
  alphabet : Alphabet
  features : FeatureSet
  /-- The tapes the author has in mind. -/
  logicalTapes : Nat
  /-- The tapes the machine works on. -/
  physicalTapes : Nat

def Draft.compile (d : Draft) : Machine where
  start := d.start
  states := d.states
  alphabet := d.alphabet
  features := d.features
  logicalTapes := d.tapes.count
  physicalTapes := if d.features.enabled .multiTape then d.tapes.count else 1

namespace Machine

def sharesTape (m : Machine) : Bool := m.physicalTapes < m.logicalTapes

def fallback (m : Machine) : Outcome :=
  ⟨List.replicate m.physicalTapes (.write .blank .right), Verdict.reject.state⟩

/-- The rule for a cell read in a state, if the cell belongs to the alphabet. -/
def rule? (m : Machine) (state : String) (c : Cell) : Option Outcome :=
  if m.alphabet.accepts c then m.states.lookup state c else none

def lookup (m : Machine) (state : String) (c : Cell) : Outcome :=
  (m.rule? state c).getD m.fallback

def stateCount (m : Machine) : Nat := m.states.size

/-- The number of entries; a group is one. -/
def ruleCount (m : Machine) : Nat :=
  (m.states.entries.flatMap fun e => e.2.entries).length

/-- The lines about one state, none if it has no rules. -/
def listState (name : String) (table : RuleTable) : List String :=
  if table.isEmpty then [] else (name ++ ":") :: table.lines.map ("  " ++ ·)

def listing (m : Machine) : String :=
  String.join ((m.states.entries.flatMap fun e => listState e.1 e.2).map (· ++ "\n"))

end Machine

end TuringLowering
