import TuringLowering.Tape.Snapshot

/-!
This module contains the observers of a run, which are told of every configuration, and the history
that remembers them.
-/

namespace TuringLowering

structure Record where
  state : String
  tapes : List Snapshot
deriving DecidableEq

def Record.of (state : String) (tapes : List Tape) : Record := ⟨state, tapes.map Tape.snapshot⟩

class Observer (ω : Type) where
  /-- A machine with that many tapes is about to be run. -/
  attach : Nat → ω → ω
  /-- The machine is now in a state, with these tapes. -/
  observe : String → List Tape → ω → ω

instance : Observer Unit where
  attach _ := id
  observe _ _ := id

instance {α β : Type} [Observer α] [Observer β] : Observer (α × β) where
  attach count := Prod.map (Observer.attach count) (Observer.attach count)
  observe state tapes := Prod.map (Observer.observe state tapes) (Observer.observe state tapes)

instance {α : Type} [Observer α] : Observer (Option α) where
  attach count := Option.map (Observer.attach count)
  observe state tapes := Option.map (Observer.observe state tapes)

/-- The configurations of a run, the current one first. -/
structure History where
  latest : List Record := []
  tapeCount : Nat := 0

namespace History

def records (h : History) : List Record := h.latest.reverse

def canUndo (h : History) : Bool := 1 < h.latest.length

/-- Drops the current configuration and returns the one before it. -/
def back? (h : History) : Option (Record × History) :=
  match h.latest with
  | _ :: record :: older => some (record, { h with latest := record :: older })
  | _ => none

theorem back?_isSome (h : History) : h.back?.isSome = h.canUndo := by
  obtain ⟨latest, _⟩ := h
  match latest with
  | [] | [_] | _ :: _ :: _ => simp [back?, canUndo]

end History

instance : Observer History where
  attach count _ := ⟨[], count⟩
  observe state tapes h := { h with latest := .of state tapes :: h.latest }

end TuringLowering
