import TuringLowering.Proofs.Composition
import TuringLowering.Proofs.Operation
import TuringLowering.Proofs.Runs

/-!
This module contains the proofs about taking steps back. During the run on one input this is the exact inverse
of a step, whatever steps were made and taken back before. A new input does not begin a new history, so that
what is taken back right after it is the loading itself.
-/

namespace TuringLowering

namespace Tape

theorem goRight_past {l after : List Cell} {c x : Cell} {xs : List Cell} (before : List Cell)
    (h : x :: xs = l ++ c :: after) : goRight l.length ⟨before, x, xs⟩ = ⟨l.reverse ++ before, c, after⟩ := by
  induction l generalizing before x xs with
  | nil =>
    cases h
    rfl
  | cons y l ih =>
    obtain ⟨z, zs, hzs⟩ : ∃ z zs, z :: zs = l ++ c :: after := by cases l <;> exact ⟨_, _, rfl⟩
    rw [List.cons_append, ← hzs] at h
    cases h
    rw [List.length_cons, goRight, stepRight, ih (y :: before) hzs, List.reverse_cons, List.append_assoc]
    rfl

@[simp]
theorem ofSnapshot_snapshot (t : Tape) : ofSnapshot t.snapshot = t := by
  obtain ⟨before, focus, after⟩ := t
  obtain ⟨x, xs, hxs⟩ : ∃ x xs, x :: xs = before.reverse ++ focus :: after := by
    cases before.reverse <;> exact ⟨_, _, rfl⟩
  have hlength : before.length ≤ xs.length := by
    have := congrArg List.length hxs
    simp only [List.length_cons, List.length_append, List.length_reverse] at this
    omega
  have hpast := goRight_past [] hxs
  rw [List.length_reverse, List.reverse_reverse, List.append_nil] at hpast
  rw [snapshot, cells, ← hxs, ofSnapshot]
  exact (congrArg (goRight · _) (Nat.min_eq_left hlength)).trans hpast

end Tape

theorem Outcome.length_apply (o : Outcome) (tapes : List Tape) : (o.apply tapes).length = tapes.length := by
  unfold apply
  generalize o.actions = actions
  induction tapes generalizing actions with
  | nil => cases actions <;> rfl
  | cons t tapes ih =>
    cases actions with
    | nil => rfl
    | cons a actions => rw [applyAll, List.length_cons, ih, List.length_cons]

namespace Session

/-- What can be asked of a session between two inputs. -/
inductive Command where
  | step
  | run (limit : Nat)
  | undo
deriving DecidableEq

def record {ω : Type} (s : Session ω) : Record := .of s.state s.tapes

theorem forward_succ' {ω : Type} [Observer ω] (s : Session ω) (n : Nat) :
    s.forward (n + 1) = (s.forward n).step.2 :=
  s.forward_add n 1

def Current (s : Session History) : Prop := s.observer.latest.head? = some s.record

/-- The session after a command; one that cannot be obeyed changes nothing. -/
def perform (s : Session History) : Command → Session History
  | .step => s.step.2
  | .run limit => (s.run limit).2
  | .undo => s.undo.getD s

variable {base s t : Session History}

theorem overwrite_snapshots {tapes tapes' : List Tape} (h : tapes'.length = tapes.length) :
    restore.overwrite tapes' (tapes.map Tape.snapshot) = tapes := by
  induction tapes generalizing tapes' with
  | nil =>
    rw [List.length_nil, List.length_eq_zero_iff] at h
    rw [h]
    rfl
  | cons t tapes ih =>
    cases tapes' with
    | nil => cases h
    | cons t' tapes' =>
      rw [List.map_cons, restore.overwrite, Tape.ofSnapshot_snapshot, ih (Nat.succ.inj h)]

theorem undo_of_recorded {r : Record} (hs : s.Current)
    (ht : t.observer = { s.observer with latest := r :: s.observer.latest })
    (hlength : t.tapes.length = s.tapes.length) :
    t.undo = some { t with
      state := s.state, tapes := s.tapes, steps := t.steps - 1, observer := s.observer } := by
  obtain ⟨older, hlatest⟩ := List.head?_eq_some_iff.mp hs
  have hback : t.observer.back? = some (s.record, s.observer) := by
    rw [ht, History.back?, hlatest]
    simp only [← hlatest]
  simp only [undo, hback, Option.map_some, restore, record, Record.of, overwrite_snapshots hlength]

theorem current_advance (s : Session History) : s.advance.Current := rfl

theorem records_advance (s : Session History) :
    s.advance.observer.records = s.observer.records ++ [s.advance.record] := List.reverse_cons

theorem undo_advance (h : s.Current) : s.advance.undo = some s :=
  undo_of_recorded h rfl (Outcome.length_apply _ _)

theorem forward_eq_or_current (s : Session History) (n : Nat) :
    s.forward n = s ∨ (s.forward n).Current := by
  refine forward_keeps (P := fun t => t = s ∨ t.Current) (fun t ht => ?_) (.inl rfl) n
  cases h : t.progress with
  | halted v => rwa [step_of_halted h]
  | running =>
    rw [step_of_running h]
    exact .inr t.current_advance

/-- A session is where the steps that it counts lead from another one. -/
def Follows (base s : Session History) : Prop := s = base.forward s.steps

namespace Follows

theorem step (h : base.Follows s) : base.Follows s.step.2 := by
  cases hp : s.progress with
  | halted v => rwa [step_of_halted hp]
  | running =>
    have hsteps : s.step.2.steps = s.steps + 1 := by rw [step_of_running hp]; rfl
    rw [Follows, hsteps, forward_succ', ← h]

theorem run (h : base.Follows s) (n : Nat) : base.Follows (s.run n).2 := by
  rw [snd_run]
  exact forward_keeps (fun _ => step) h n

theorem eq_advance (h : base.Follows s) (hbase : base.steps = 0) {k : Nat} (hk : s.steps = k + 1) :
    s = (base.forward k).advance ∧ (base.forward k).steps = k := by
  have hlast : s = (base.forward k).step.2 := by rw [← forward_succ', ← hk]; exact h
  have hle : (base.forward k).steps ≤ k := by
    rw [steps_forward, hbase, Nat.zero_add]
    exact Machine.length_trace_le k _
  cases hp : (base.forward k).progress with
  | halted v =>
    have hsteps : s.steps = (base.forward k).steps := by rw [hlast, step_of_halted hp]
    omega
  | running =>
    rw [step_of_running hp] at hlast
    have hsteps : s.steps = (base.forward k).steps + 1 := congrArg Session.steps hlast
    exact ⟨hlast, by omega⟩

theorem undo (h : base.Follows s) (hbase : base.steps = 0) (hcurrent : base.Current) {k : Nat}
    (hk : s.steps = k + 1) : s.undo = some (base.forward k) := by
  have hrecorded : (base.forward k).Current := by
    rcases base.forward_eq_or_current k with heq | hrecorded
    . rwa [heq]
    . exact hrecorded
  rw [(h.eq_advance hbase hk).1, undo_advance hrecorded]

theorem eq_base (h : base.Follows s) (hzero : s.steps = 0) : s = base := by
  rwa [Follows, hzero] at h

theorem forward (h : base.Follows s) (hbase : base.steps = 0) {k : Nat} (hk : s.steps = k + 1) :
    base.Follows (base.forward k) := by
  rw [Follows, (h.eq_advance hbase hk).2]

theorem records (h : base.Follows s) (hbase : base.steps = 0)
    (hrecords : base.observer.records = [base.record]) :
    s.observer.records = (List.range (s.steps + 1)).map fun k => (base.forward k).record := by
  generalize hk : s.steps = k
  induction k generalizing s with
  | zero =>
    rw [h.eq_base hk, hrecords]
    rfl
  | succ k ih =>
    obtain ⟨hlast, hsteps⟩ := h.eq_advance hbase hk
    have hs : s = base.forward (k + 1) := by rw [← hk]; exact h
    rw [List.range_succ, List.map_append, ← ih (h.forward hbase hk) hsteps, List.map_singleton, ← hs, hlast,
      records_advance]

theorem perform (h : base.Follows s) (hbase : base.steps = 0) (hcurrent : base.Current)
    (hfirst : base.undo = none) (c : Command) : base.Follows (s.perform c) := by
  cases c with
  | step => exact h.step
  | run limit => exact h.run limit
  | undo =>
    rw [Session.perform]
    cases hk : s.steps with
    | zero =>
      rw [h.eq_base hk, hfirst]
      exact h.eq_base hk ▸ h
    | succ k =>
      rw [h.undo hbase hcurrent hk]
      exact h.forward hbase hk

theorem performs (h : base.Follows s) (hbase : base.steps = 0) (hcurrent : base.Current)
    (hfirst : base.undo = none) (commands : List Command) :
    base.Follows (commands.foldl Session.perform s) := by
  induction commands generalizing s with
  | nil => exact h
  | cons c commands ih => exact ih (h.perform hbase hcurrent hfirst c)

end Follows

/--
After an input was loaded into a new session, whatever is asked for, the session is where as many steps as it
counts lead from there. All configurations on the way are recorded, in order, and no others. The last step can
be taken back, if there is one, and this leads to where one step less does.
-/
theorem undo_inverts_step (m : Machine) (input : List Cell) (commands : List Command) :
    let loaded := (Session.new m ({} : History)).load input
    let s := commands.foldl Session.perform loaded
    s = loaded.forward s.steps
      ∧ s.observer.records = (List.range (s.steps + 1)).map (fun k => (loaded.forward k).record)
      ∧ (s.undo = none ↔ s.steps = 0)
      ∧ s.perform .undo = if s.steps = 0 then s else loaded.forward (s.steps - 1) := by
  intro loaded s
  have hfirst : loaded.undo = none := rfl
  have hstart : loaded.Follows loaded := rfl
  have hfollows : loaded.Follows s := hstart.performs rfl rfl hfirst commands
  refine ⟨hfollows, hfollows.records rfl rfl, ?_⟩
  rw [Session.perform]
  cases hk : s.steps with
  | zero => simp [hfollows.eq_base hk, hfirst]
  | succ k => simp [hfollows.undo rfl rfl hk]

/-- What can be asked of a session. -/
inductive Operation where
  | load (input : List Cell)
  | reset
  | command (command : Command)
deriving DecidableEq

/-- The input that a session has after an operation. -/
def Operation.inputAfter (input : List Cell) : Operation → List Cell
  | .load input => input
  | _ => input

def answer (s : Session History) : Operation → Session History
  | .load input => s.load input
  | .reset => s.reset
  | .command c => s.perform c

/-- While no step is counted, nothing is taken back in the course of the operations. -/
def UndoesSteps (s : Session History) : List Operation → Prop
  | [] => True
  | op :: operations =>
    (op = .command .undo → s.steps = 0 → s.undo = none) ∧ (s.answer op).UndoesSteps operations

instance decidableUndoesSteps (s : Session History) :
    (operations : List Operation) → Decidable (s.UndoesSteps operations)
  | [] => inferInstanceAs (Decidable True)
  | op :: operations =>
    have := (s.answer op).decidableUndoesSteps operations
    inferInstanceAs (Decidable ((op = .command .undo → s.steps = 0 → s.undo = none) ∧ _))

variable {m : Machine}

/-- What every session with a history keeps to: what is recorded are configurations, the last one its own. -/
structure Tracked (m : Machine) (s : Session History) : Prop where
  machine : s.machine = m
  tapes : s.tapes.length = m.physicalTapes
  records : ∀ r ∈ s.observer.latest, ∃ state tapes, tapes.length = m.physicalTapes ∧ r = .of state tapes
  current : s = Session.new m {} ∨ s.Current

theorem length_inputTapes (count : Nat) (input : List Cell) : (inputTapes count input).length = count := by
  cases count <;> simp [inputTapes]

namespace Tracked

theorem new (m : Machine) : Tracked m (Session.new m {}) where
  machine := rfl
  tapes := List.length_replicate
  records := fun _ h => absurd h List.not_mem_nil
  current := .inl rfl

theorem notify (h : Tracked m s) (hmachine : t.machine = m) (htapes : t.tapes.length = m.physicalTapes)
    (hobserver : t.observer = s.observer) : Tracked m t.notify where
  machine := hmachine
  tapes := htapes
  records := by
    intro r hr
    rcases List.mem_cons.mp hr with rfl | hr
    . exact ⟨t.state, t.tapes, htapes, rfl⟩
    . exact h.records r (hobserver ▸ hr)
  current := .inr rfl

theorem load (h : Tracked m s) (input : List Cell) : Tracked m (s.load input) := by
  refine h.notify h.machine ?_ rfl
  rw [length_inputTapes]
  exact congrArg Machine.physicalTapes h.machine

theorem step (h : Tracked m s) : Tracked m s.step.2 := by
  cases hp : s.progress with
  | halted v => rwa [step_of_halted hp]
  | running =>
    rw [step_of_running hp]
    exact h.notify h.machine ((Outcome.length_apply _ _).trans h.tapes) rfl

theorem run (h : Tracked m s) (n : Nat) : Tracked m (s.run n).2 := by
  rw [snd_run]
  exact forward_keeps (fun _ => step) h n

theorem undo (h : Tracked m s) (ht : s.undo = some t) : Tracked m t := by
  rw [Session.undo, Option.map_eq_some_iff] at ht
  obtain ⟨⟨r, history⟩, hback, rfl⟩ := ht
  unfold History.back? at hback
  split at hback
  . next hlatest =>
    cases hback
    obtain ⟨state, tapes, hlength, rfl⟩ := h.records r (by simp [hlatest])
    have htapes : restore.overwrite s.tapes (tapes.map Tape.snapshot) = tapes :=
      overwrite_snapshots (h.tapes.trans hlength.symm)
    refine ⟨h.machine, ?_, fun r hr => h.records r ?_, .inr ?_⟩
    . exact (congrArg List.length htapes).trans hlength
    . rw [hlatest]
      exact List.mem_cons_of_mem _ hr
    . exact congrArg (fun tapes => some (Record.of state tapes)) htapes.symm
  . cases hback

theorem answer (h : Tracked m s) (op : Operation) : Tracked m (s.answer op) := by
  match op with
  | .load input => exact h.load input
  | .reset => exact h.load s.input
  | .command .step => exact h.step
  | .command (.run limit) => exact h.run limit
  | .command .undo =>
    rw [Session.answer, Session.perform]
    cases ht : s.undo with
    | none => exact h
    | some t => exact h.undo ht

theorem answers (m : Machine) (operations : List Operation) :
    Tracked m (operations.foldl Session.answer (Session.new m {})) := by
  induction operations using List.reverseRecOn with
  | nil => exact new m
  | append_singleton operations op ih =>
    rw [List.foldl_append]
    exact ih.answer op

theorem undo_load (h : Tracked m s) (input : List Cell) :
    ((s.load input).undo = none ↔ s = Session.new m {})
      ∧ (s ≠ Session.new m {} → (s.load input).undo = some { s with input, steps := 0 }) := by
  rcases h.current with rfl | hcurrent
  . exact ⟨⟨fun _ => rfl, fun _ => rfl⟩, fun hne => absurd rfl hne⟩
  . have hundo : (s.load input).undo = some { s with input, steps := 0 } := by
      refine undo_of_recorded hcurrent rfl ?_
      rw [(h.load input).tapes, h.tapes]
    have hne : s ≠ Session.new m {} := by
      rintro rfl
      cases hcurrent
    exact ⟨by simp [hundo, hne], fun _ => hundo⟩

end Tracked

section Input

variable {ω : Type} [Observer ω]

theorem input_forward (s : Session ω) (n : Nat) : (s.forward n).input = s.input := by
  refine forward_keeps (P := fun t => t.input = s.input) (fun t ht => ?_) rfl n
  rw [← ht, step]
  split <;> rfl

end Input

theorem input_answer (s : Session History) (op : Operation) : (s.answer op).input = op.inputAfter s.input := by
  match op with
  | .load _ | .reset => rfl
  | .command .step => exact s.input_forward 1
  | .command (.run limit) => rw [answer, perform, snd_run, input_forward]; rfl
  | .command .undo =>
    rw [answer, perform, Session.undo]
    cases s.observer.back? <;> rfl

theorem input_answers (s : Session History) (operations : List Operation) :
    (operations.foldl answer s).input = operations.foldl Operation.inputAfter s.input := by
  induction operations generalizing s with
  | nil => rfl
  | cons op operations ih => rw [List.foldl_cons, List.foldl_cons, ih, input_answer]

/-- A session at the start of a run: a new one, or one into which an input was just loaded. -/
structure Started (m : Machine) (base : Session History) : Prop where
  machine : base.machine = m
  steps : base.steps = 0
  config : base.config = m.initial base.input
  current : base = Session.new m {} ∨ base.Current

theorem started_new (m : Machine) : Started m (Session.new m {}) where
  machine := rfl
  steps := rfl
  config := by
    rw [Machine.initial, Session.config, Session.new]
    cases m.physicalTapes <;> rfl
  current := .inl rfl

theorem started_load (s : Session History) (input : List Cell) : Started s.machine (s.load input) :=
  ⟨rfl, rfl, rfl, .inr rfl⟩

namespace Started

theorem eq_ran (hbase : Started m base) (h : base.Follows s) :
    s.config = (m.ran s.input s.steps).2.config ∧ s.steps = (m.ran s.input s.steps).2.steps := by
  have hinput : s.input = base.input := by rw [h, input_forward]
  have hinitial : base.config = m.initial s.input := by rw [hinput, hbase.config]
  constructor
  . rw [Machine.config_ran, ← hinitial, ← hbase.machine, ← config_forward, ← h]
  . rw [Machine.ran, snd_run, steps_forward]
    change s.steps = 0 + (m.trace s.steps (m.initial s.input)).length
    rw [← hinitial, ← hbase.machine, ← hbase.steps, ← steps_forward, ← h]

theorem undo (hbase : Started m base) (h : base.Follows s) {k : Nat} (hk : s.steps = k + 1) :
    s.undo = none ∨ s.undo = some (base.forward k) := by
  have hlast := (h.eq_advance hbase.steps hk).1
  rcases base.forward_eq_or_current k with heq | hrecorded
  . rcases hbase.current with rfl | hcurrent
    . rw [heq] at hlast
      rw [hlast]
      exact .inl rfl
    . exact .inr (h.undo hbase.steps hcurrent hk)
  . rw [hlast]
    exact .inr (undo_advance hrecorded)

end Started

def OnRun (m : Machine) (s : Session History) : Prop := ∃ base, Started m base ∧ base.Follows s

namespace OnRun

theorem load (h : OnRun m s) (input : List Cell) : OnRun m (s.load input) := by
  obtain ⟨base, hbase, hfollows⟩ := h
  have hmachine : s.machine = m := by rw [hfollows, machine_forward, hbase.machine]
  exact ⟨s.load input, hmachine ▸ s.started_load input, rfl⟩

theorem answer (h : OnRun m s) (op : Operation) (hundo : op = .command .undo → s.steps = 0 → s.undo = none) :
    OnRun m (s.answer op) := by
  match op with
  | .load input => exact h.load input
  | .reset => exact h.load s.input
  | .command .step =>
    obtain ⟨base, hbase, hfollows⟩ := h
    exact ⟨base, hbase, hfollows.step⟩
  | .command (.run limit) =>
    obtain ⟨base, hbase, hfollows⟩ := h
    exact ⟨base, hbase, hfollows.run limit⟩
  | .command .undo =>
    obtain ⟨base, hbase, hfollows⟩ := h
    have hcases : s.undo = none ∨ ∃ t, s.undo = some t ∧ base.Follows t := by
      cases hk : s.steps with
      | zero => exact .inl (hundo rfl hk)
      | succ k =>
        refine (hbase.undo hfollows hk).imp_right fun hsome => ⟨_, hsome, ?_⟩
        exact hfollows.forward hbase.steps hk
    rw [Session.answer, Session.perform]
    rcases hcases with hnone | ⟨t, hsome, ht⟩
    . rw [hnone]
      exact ⟨base, hbase, hfollows⟩
    . rw [hsome]
      exact ⟨base, hbase, ht⟩

theorem answers (h : OnRun m s) {operations : List Operation} (hundo : s.UndoesSteps operations) :
    OnRun m (operations.foldl Session.answer s) := by
  induction operations generalizing s with
  | nil => exact h
  | cons op operations ih => exact ih (h.answer op hundo.1) hundo.2

end OnRun

/--
To load an input is to start anew, whatever was done before, but for the history: unless the session was still
new, the loading can be taken back as if it were a step, which leaves the new input and no steps with the
configuration from before. As long as only steps are taken back, the configuration is the one to which the
steps that are counted lead from the input that was loaded last.
-/
theorem undo_across_loads (m : Machine) (operations : List Operation) :
    let fresh := Session.new m ({} : History)
    let s := operations.foldl Session.answer fresh
    s.reset = s.load s.input ∧ s.input = operations.foldl Operation.inputAfter []
      ∧ (∀ input, (s.load input).config = m.initial input ∧ (s.load input).steps = 0
        ∧ ((s.load input).undo = none ↔ s = fresh)
        ∧ (s ≠ fresh → (s.load input).undo = some { s with input, steps := 0 }))
      ∧ (fresh.UndoesSteps operations →
        s.config = (m.ran s.input s.steps).2.config ∧ s.steps = (m.ran s.input s.steps).2.steps) := by
  intro fresh s
  have htracked : Tracked m s := Tracked.answers m operations
  refine ⟨rfl, input_answers fresh operations, fun input => ⟨?_, rfl, htracked.undo_load input⟩,
    fun hundo => ?_⟩
  . rw [← htracked.machine]
    rfl
  . have hfresh : OnRun m fresh := ⟨fresh, started_new m, rfl⟩
    obtain ⟨base, hbase, hfollows⟩ := hfresh.answers hundo
    exact hbase.eq_ran hfollows

/-- A step is made and taken back before another input is loaded. -/
theorem undo_across_loads_second_input :
    let a := Cell.literal "a"
    let b := Cell.literal "b"
    let m := ((Draft.new "q").receive
      [.alphabets [a, b] [], .directive (.replace "q" a b .right "q")]).compile
    let fresh := Session.new m ({} : History)
    let operations : List Operation := [.load [a], .command .step, .command .undo, .command (.run 1)]
    let s := operations.foldl Session.answer fresh
    fresh.UndoesSteps operations ∧ s ≠ fresh ∧ s.config = (m.ran [a] 1).2.config
      ∧ (s.load [b]).undo = some { s with input := [b], steps := 0 } := by
  intro a b m fresh operations s
  have hundo : fresh.UndoesSteps operations := by decide +kernel
  have hsteps : s.steps = 1 := by decide +kernel
  have hne : s ≠ fresh := by
    intro heq
    rw [heq] at hsteps
    cases hsteps
  obtain ⟨_, hinput, hload, hconfig⟩ := undo_across_loads m operations
  refine ⟨hundo, hne, ?_, (hload [b]).2.2.2 hne⟩
  rw [(hconfig hundo).1, hinput, hsteps]
  rfl

/--
After a step on one input, another one is loaded: what is taken back leads to the tape of the first run.
-/
theorem loading_undone :
    let a := Cell.literal "a"
    let b := Cell.literal "b"
    let m := ((Draft.new "q").receive
      [.alphabets [a, b] [], .directive (.replace "q" a b .right "q")]).compile
    let operations : List Operation := [.load [a], .command .step, .load [b]]
    let s := operations.foldl Session.answer (Session.new m {})
    let t := s.answer (.command .undo)
    s.steps = 0 ∧ s.tapes = [⟨[], b, [.blank]⟩] ∧ s.undo.isSome = true
      ∧ t.input = [b] ∧ t.steps = 0 ∧ t.tapes = [⟨[b], .blank, [.blank]⟩] := by
  decide +kernel

end Session

end TuringLowering
