import TuringLowering.RuleTable.Basic

/-!
This module contains the listing of the rules of a state: exact rules in the order in which they
were added, then the groups, then the wildcard.
-/

namespace TuringLowering

inductive RuleEntry where
  | exact (cell : Cell) (outcome : Outcome)
  | group (group : RuleGroup)
  | wildcard (outcome : Outcome)
deriving DecidableEq

namespace RuleEntry

def outcome : RuleEntry → Outcome
  | .exact _ o => o
  | .group g => g.outcome
  | .wildcard o => o

def key : RuleEntry → String
  | .exact c _ => c.display
  | .group g =>
    match g.source with
    | some source => source.display
    | none => Cell.displayAll g.cells
  | .wildcard _ => JointPattern.any.display

def display (e : RuleEntry) : String := e.key ++ " ⟶ " ++ e.outcome.display

end RuleEntry

namespace RuleTable

def entries (t : RuleTable) : List RuleEntry :=
  t.exact.map (fun (c, o) => .exact c o) ++ t.groups.map .group
    ++ t.wildcard.toList.map .wildcard

def outcomes (t : RuleTable) : List Outcome :=
  t.exact.map Prod.snd ++ t.groups.map RuleGroup.outcome ++ t.wildcard.toList

theorem outcomes_eq_map_entries (t : RuleTable) : t.outcomes = t.entries.map RuleEntry.outcome := by
  simp [outcomes, entries, RuleEntry.outcome, Function.comp_def]

def lines (t : RuleTable) : List String := t.entries.map RuleEntry.display

end RuleTable

end TuringLowering
