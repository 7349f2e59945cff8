import TuringLowering.Draft.Basic

/-!
This module contains the lowering of a transition on one tape. A movement that cannot be a single
rule is split, and symbols that cannot share a rule get a rule each.
-/

namespace TuringLowering

def Writing.action : Writing → Move → Action
  | .put c, m => .write c m
  | .keep, m => .preserve m

/-- Whether symbols can share a rule, which may be one that keeps the symbol read. -/
def FeatureSet.groups (s : FeatureSet) (keeps : Bool) : Bool :=
  s.enabled .multiMatch && (!keeps || s.enabled .multiMatchNoChange)

namespace Build

def directForCells (origin : String) (cells : List Cell) (write : Writing) (move : Move)
    (next : String) : Build Unit := do
  let grouped := (← get).features.groups (write == .keep)
  addRules origin cells grouped (.single (write.action move) next)
    (fun c => .single (.write (write.onto c) move) next) none

def direct (origin : String) (read : Pattern) (write : Writing) (move : Move) (next : String) :
    Build Unit := do
  match read with
  | .cell c => addRule origin (RuleTable.addExact c (.single (.write (write.onto c) move) next))
  | .oneOf cells => directForCells origin cells write move next
  | .any =>
    if ← enabled .wildcard then
      addRule origin fun _ => RuleTable.addWildcard (.single (write.action move) next)
    else
      directForCells origin ((← get).uncovered origin) write move next

/-- Adds a transition. A movement that cannot be a single rule goes through a state for its rest. -/
def transition (origin : String) (read : Pattern) (write : Writing) (move : Move)
    (next : String) : Build Unit :=
  go (max 1 move.distance) origin read write move next
where
  /-- At most `n` steps are split off. -/
  go (n : Nat) (origin : String) (read : Pattern) (write : Writing) (move : Move)
      (next : String) : Build Unit :=
    match n with
    | 0 => direct origin read write move next
    | n + 1 => do
      if (← get).features.supports move then
        direct origin read write move next
      else
        let step := move.detour.1
        let rest := move.detour.2
        let (state, isNew) ← chain ⟨.continuation, [rest.display, next]⟩ [rest.display, next]
        if isNew then
          go n state .any .keep rest next
        direct origin read write step state

end Build

end TuringLowering
