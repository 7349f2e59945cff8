import TuringLowering.Machine
import TuringLowering.Observer
import TuringLowering.Segment.Basic

/-!
This module contains the execution of a machine, step by step, under the eyes of an observer.
-/

namespace TuringLowering

inductive Progress where
  | running
  | halted (verdict : Verdict)
deriving DecidableEq

def Progress.ofState (state : String) : Progress :=
  match Verdict.ofState? state with
  | some v => .halted v
  | none => .running

structure Session (ω : Type) where
  machine : Machine
  state : String
  tapes : List Tape
  input : List Cell
  steps : Nat
  observer : ω

namespace Session

variable {ω : Type} [Observer ω]

def defaultLimit : Nat := 100000

def new (machine : Machine) (observer : ω) : Session ω where
  machine
  state := machine.start
  tapes := List.replicate machine.physicalTapes .blank
  input := []
  steps := 0
  observer := Observer.attach machine.logicalTapes observer

def notify (s : Session ω) : Session ω :=
  { s with observer := Observer.observe s.state s.tapes s.observer }

def inputTapes (count : Nat) (input : List Cell) : List Tape :=
  match count with
  | 0 => []
  | n + 1 => .ofInput input :: List.replicate n .blank

/-- Goes back to the start with the input loaded last. -/
def reset (s : Session ω) : Session ω :=
  { s with
    state := s.machine.start
    tapes := inputTapes s.machine.physicalTapes s.input
    steps := 0 }.notify

def load (s : Session ω) (input : List Cell) : Session ω := { s with input }.reset

omit [Observer ω] in
def verdict? (s : Session ω) : Option Verdict := Verdict.ofState? s.state

/-- What the heads read: one cell, or the combination of the cells on several tapes. -/
def key : List Tape → Cell
  | [t] => t.focus
  | tapes => .joint (tapes.map Tape.focus)

omit [Observer ω] in
def progress (s : Session ω) : Progress := .ofState s.state

def advance (s : Session ω) : Session ω :=
  let outcome := s.machine.lookup s.state (key s.tapes)
  { s with
    state := outcome.next
    tapes := outcome.apply s.tapes
    steps := s.steps + 1 }.notify

/-- A machine that has halted stays as it is. -/
def step (s : Session ω) : Progress × Session ω :=
  match s.progress with
  | .halted v => (.halted v, s)
  | .running => (s.advance.progress, s.advance)

def batchSize : Nat := 500

def runBatch : Nat → Session ω → Progress × Session ω
  | 0, s => (.running, s)
  | n + 1, s =>
    match s.step with
    | (.halted v, s) => (.halted v, s)
    | (.running, s) => runBatch n s

/-- Runs in batches, the last of which may be short, until the machine halts or made `limit` steps. -/
def run (limit : Nat) (s : Session ω) : Progress × Session ω :=
  if 0 < limit then
    let batch := min limit batchSize
    match runBatch batch s with
    | (.halted v, s) => (.halted v, s)
    | (.running, s) => run (limit - batch) s
  else (.running, s)
termination_by limit
decreasing_by
  have : 0 < batchSize := by decide
  omega

@[simp]
theorem run_zero (s : Session ω) : run 0 s = (.running, s) := by
  rw [run, if_neg (Nat.lt_irrefl 0)]

theorem runBatch_add (m n : Nat) (s : Session ω) :
    runBatch (m + n) s =
      match runBatch m s with
      | (.halted v, s) => (.halted v, s)
      | (.running, s) => runBatch n s := by
  induction m generalizing s with
  | zero => rw [Nat.zero_add, runBatch]
  | succ m ih =>
    rw [Nat.succ_add, runBatch, runBatch]
    split
    . rfl
    . exact ih _

/-- How the steps are split into batches makes no difference. -/
theorem run_eq_runBatch (limit : Nat) (s : Session ω) : run limit s = runBatch limit s := by
  fun_induction run limit s with
  | case1 limit s _ batch v s' hbatch =>
    rw [← Nat.add_sub_cancel' (Nat.min_le_left limit batchSize), runBatch_add, hbatch]
  | case2 limit s _ batch s' hbatch ih =>
    have hsplit : limit = batch + (limit - batch) := by omega
    rw [ih, hsplit, runBatch_add, hbatch, ← hsplit]
  | case3 limit s hlimit =>
    obtain rfl : limit = 0 := by omega
    rfl

omit [Observer ω] in
/-- Takes over a recorded configuration. Tapes without a counterpart are left alone. -/
def restore (s : Session ω) (record : Record) : Session ω :=
  { s with
    state := record.state
    tapes := overwrite s.tapes record.tapes }
where
  overwrite : List Tape → List Snapshot → List Tape
    | _ :: tapes, snapshot :: snapshots => .ofSnapshot snapshot :: overwrite tapes snapshots
    | tapes, _ => tapes

omit [Observer ω] in
/-- The tapes as the author sees them. -/
def logicalTapes (s : Session ω) : List Snapshot :=
  match s.tapes with
  | [t] =>
    if s.machine.sharesTape then Segment.decode t.cells s.machine.logicalTapes
    else [t.snapshot]
  | tapes => tapes.map Tape.snapshot

/-- Undoes a step, if a configuration before the current one is remembered. -/
def undo (s : Session History) : Option (Session History) :=
  s.observer.back?.map fun (record, history) =>
    { s.restore record with steps := s.steps - 1, observer := history }

end Session

end TuringLowering
