/-!
This module contains the two ways in which a machine halts, and the states that stand for them.
-/

namespace TuringLowering

inductive Verdict where
  | accept
  | reject
deriving DecidableEq, Repr

namespace Verdict

def all : List Verdict := [accept, reject]

def state : Verdict → String
  | accept => "ACCEPT"
  | reject => "REJECT"

def ofState? (name : String) : Option Verdict := all.find? (·.state = name)

def name : Verdict → String
  | accept => "Accept"
  | reject => "Reject"

@[simp]
theorem ofState?_state (v : Verdict) : ofState? v.state = some v := by
  cases v <;> decide

theorem ofState?_eq_some_iff {name : String} {v : Verdict} :
    ofState? name = some v ↔ v.state = name := by
  constructor
  . intro h
    simpa using List.find?_some h
  . rintro rfl
    exact ofState?_state v

end Verdict

def isTerminal (state : String) : Bool := (Verdict.ofState? state).isSome

end TuringLowering
