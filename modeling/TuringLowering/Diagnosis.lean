import TuringLowering.Machine
import TuringLowering.Text.Quoted

/-!
This module contains the check of a finished machine for states in which it can only reject, and for
states that it never enters. The first defect found is reported.
-/

namespace TuringLowering

inductive Defect where
  | startWithoutRules (state : String)
  /-- States that rules lead to, but that have none themselves. -/
  | undefinedStates (states : List String)
  /-- States with rules that no run enters. -/
  | unreachableStates (states : List String)
deriving DecidableEq

def Defect.message : Defect → String
  | .startWithoutRules state =>
    "Machine validation error: Start state " ++ state ++ " has no transitions"
  | .undefinedStates states =>
    "Machine validation error: Transitions lead to states without transitions: "
      ++ Quoted.list states
  | .unreachableStates states =>
    "Machine validation error: Unreachable states detected: " ++ Quoted.list states

def insertName (name : String) : List String → List String
  | [] => [name]
  | other :: names =>
    if name < other then name :: other :: names
    else if name = other then other :: names
    else other :: insertName name names

def sortNames (names : List String) : List String := names.foldr insertName []

namespace Machine

def isDefined (m : Machine) (state : String) : Bool :=
  match m.states.find? state with
  | some table => !table.isEmpty
  | none => false

def nextStates (m : Machine) (state : String) : List String :=
  match m.states.find? state with
  | some table => table.outcomes.map Outcome.next
  | none => []

inductive Reachable (m : Machine) : String → Prop where
  | start : Reachable m m.start
  | next {state after : String} : Reachable m state → after ∈ m.nextStates state →
    Reachable m after

/--
Adds to `reached` what can be reached from the states in `queue`, those that wait longest first, in at
most `n` visits.
-/
def explore (m : Machine) : Nat → List String → List String → List String
  | 0, _, reached => reached
  | _ + 1, [], reached => reached
  | n + 1, state :: queue, reached =>
    if state ∈ reached then explore m n queue reached
    else explore m n (queue ++ m.nextStates state) (state :: reached)

/-- Every rule is followed at most once, so this many visits are enough. -/
def reachable (m : Machine) : List String :=
  m.explore (m.ruleCount + 2) [m.start] []

def undefinedStates (m : Machine) : List String :=
  sortNames ((m.states.names.flatMap m.nextStates).filter fun next =>
    !isTerminal next && !m.isDefined next)

def unreachableStates (m : Machine) : List String :=
  let reached := m.reachable
  sortNames (m.states.names.filter fun state => m.isDefined state && !reached.contains state)

def diagnose (m : Machine) : Option Defect :=
  if !m.isDefined m.start then some (.startWithoutRules m.start)
  else
    let undefined := m.undefinedStates
    if !undefined.isEmpty then some (.undefinedStates undefined)
    else
      let unreachable := m.unreachableStates
      if !unreachable.isEmpty then some (.unreachableStates unreachable) else none

end Machine

end TuringLowering
