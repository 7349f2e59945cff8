import Mathlib.Logic.Relation
import Mathlib.Logic.Function.Iterate
import TuringLowering.Session
import TuringLowering.Proofs.Tables
import TuringLowering.Proofs.View

/-!
This module contains the configurations a machine goes through. The rules of a draft with one tape take
one configuration to another; what they reach is kept when rules are added to the draft.
-/

namespace TuringLowering

structure Config where
  state : String
  tapes : List Tape

namespace Machine

/-- The configuration after one step; one in which the machine has halted stays as it is. -/
def next (m : Machine) (c : Config) : Config :=
  if isTerminal c.state then c
  else
    let outcome := m.lookup c.state (Session.key c.tapes)
    ⟨outcome.next, outcome.apply c.tapes⟩

theorem next_of_terminal (m : Machine) {c : Config} (h : isTerminal c.state = true) :
    m.next c = c := by
  rw [next, if_pos h]

theorem isTerminal_state (v : Verdict) : isTerminal v.state = true := by
  cases v <;> decide

theorem iterate_next_of_terminal (m : Machine) {c : Config} (h : isTerminal c.state = true)
    (n : Nat) : m.next^[n] c = c := Function.iterate_fixed (m.next_of_terminal h) n

theorem halts_unique (m : Machine) {c : Config} {n n' : Nat}
    (hn : isTerminal (m.next^[n] c).state = true) (hn' : isTerminal (m.next^[n'] c).state = true) :
    m.next^[n] c = m.next^[n'] c := by
  rw [← m.iterate_next_of_terminal hn n', ← m.iterate_next_of_terminal hn' n,
    ← Function.iterate_add_apply, ← Function.iterate_add_apply, Nat.add_comm]

theorem halts_later (m : Machine) {c c' : Config} {k n : Nat} {v : Verdict} {tapes : List Tape}
    (hc : isTerminal c.state = false) (hk : 0 < k) (hc' : m.next^[k] c = c')
    (hn : m.next^[n] c = ⟨v.state, tapes⟩) : ∃ n' < n, m.next^[n'] c' = ⟨v.state, tapes⟩ := by
  have hpos : 0 < n := by
    apply Nat.pos_of_ne_zero
    rintro rfl
    rw [Function.iterate_zero, id] at hn
    rw [hn, isTerminal_state] at hc
    cases hc
  by_cases hkn : k ≤ n
  . refine ⟨n - k, by omega, ?_⟩
    rw [← hc', ← Function.iterate_add_apply, Nat.sub_add_cancel hkn, hn]
  . refine ⟨0, hpos, ?_⟩
    have hsplit : k = (k - n) + n := by omega
    rw [Function.iterate_zero, id, ← hc', hsplit, Function.iterate_add_apply, hn]
    exact m.iterate_next_of_terminal (isTerminal_state v) _

/--
If each configuration of one machine that is related to one of the other is followed by such a
configuration, then where the one halts the other gets to what a halt of the one asks for.
-/
theorem halts_of_simulation {m m' : Machine} {R Q : Config → Config → Prop}
    (hstep : ∀ c c', R c c' → isTerminal c.state = false →
      ∃ k k', 0 < k ∧ R (m.next^[k] c) (m'.next^[k'] c'))
    (hhalt : ∀ c c', R c c' → isTerminal c.state = true → ∃ n, Q c (m'.next^[n] c'))
    {c c' : Config} (h : R c c') {n : Nat} {v : Verdict} {tapes : List Tape}
    (hn : m.next^[n] c = ⟨v.state, tapes⟩) : ∃ n', Q ⟨v.state, tapes⟩ (m'.next^[n'] c') := by
  -- The rest of the run of `m` gets shorter with each of the steps that are simulated.
  induction n using Nat.strongRecOn generalizing c c' with
  | ind n ih =>
    cases hc : isTerminal c.state with
    | true =>
      rw [m.iterate_next_of_terminal hc] at hn
      rw [← hn]
      exact hhalt c c' h hc
    | false =>
      obtain ⟨k, k', hk, hnext⟩ := hstep c c' h hc
      obtain ⟨n', hlt, hn'⟩ := m.halts_later hc hk rfl hn
      obtain ⟨n'', hQ⟩ := ih n' hlt hnext hn'
      rw [← Function.iterate_add_apply] at hQ
      exact ⟨_, hQ⟩

end Machine

namespace Session

variable {ω : Type}

def config (s : Session ω) : Config := ⟨s.state, s.tapes⟩

theorem progress_eq_running_iff {s : Session ω} :
    s.progress = .running ↔ isTerminal s.state = false := by
  unfold progress Progress.ofState isTerminal
  cases Verdict.ofState? s.state <;> simp

theorem state_of_progress {s : Session ω} {v : Verdict} (h : s.progress = .halted v) :
    s.state = v.state := by
  unfold progress Progress.ofState at h
  cases hv : Verdict.ofState? s.state with
  | none => simp [hv] at h
  | some w =>
    simp only [hv, Progress.halted.injEq] at h
    rw [← h]
    exact (Verdict.ofState?_eq_some_iff.mp hv).symm

theorem isTerminal_of_progress {s : Session ω} {v : Verdict} (h : s.progress = .halted v) :
    isTerminal s.state = true := by
  rw [state_of_progress h]
  exact Machine.isTerminal_state v

variable [Observer ω]

theorem step_of_halted {s : Session ω} {v : Verdict} (h : s.progress = .halted v) :
    s.step = (.halted v, s) := by
  simp only [step, h]

theorem step_of_running {s : Session ω} (h : s.progress = .running) :
    s.step = (s.advance.progress, s.advance) := by
  simp only [step, h]

theorem fst_step (s : Session ω) : s.step.1 = s.step.2.progress := by
  cases h : s.progress with
  | halted v => rw [step_of_halted h, h]
  | running => rw [step_of_running h]

@[simp]
theorem machine_step (s : Session ω) : s.step.2.machine = s.machine := by
  unfold step
  split <;> rfl

theorem config_step (s : Session ω) : s.step.2.config = s.machine.next s.config := by
  cases h : s.progress with
  | halted v => rw [step_of_halted h, s.machine.next_of_terminal (isTerminal_of_progress h)]
  | running =>
    rw [step_of_running h, Machine.next, if_neg (by simp [config, progress_eq_running_iff.mp h])]
    rfl

/-- The session after `n` steps, each of which is asked for on its own. -/
def forward (s : Session ω) (n : Nat) : Session ω := (fun t : Session ω => t.step.2)^[n] s

@[simp]
theorem forward_zero (s : Session ω) : s.forward 0 = s := rfl

theorem forward_succ (s : Session ω) (n : Nat) : s.forward (n + 1) = s.step.2.forward n := rfl

theorem forward_add (s : Session ω) (m n : Nat) : s.forward (m + n) = (s.forward m).forward n := by
  rw [forward, Nat.add_comm, Function.iterate_add_apply]
  rfl

theorem forward_of_halted {s : Session ω} {v : Verdict} (h : s.progress = .halted v) (n : Nat) :
    s.forward n = s :=
  Function.iterate_fixed (by rw [step_of_halted h]) n

theorem forward_keeps {P : Session ω → Prop} (hstep : ∀ t, P t → P t.step.2) {s : Session ω} (h : P s)
    (n : Nat) : P (s.forward n) :=
  Function.Iterate.rec P h hstep n

@[simp]
theorem machine_forward (s : Session ω) (n : Nat) : (s.forward n).machine = s.machine :=
  forward_keeps (P := fun t => t.machine = s.machine) (fun t h => t.machine_step.trans h) rfl n

theorem config_forward (s : Session ω) (n : Nat) :
    (s.forward n).config = s.machine.next^[n] s.config := by
  induction n generalizing s with
  | zero => rfl
  | succ n ih => rw [forward_succ, ih, machine_step, config_step, Function.iterate_succ_apply]

theorem run_succ (n : Nat) (s : Session ω) :
    run (n + 1) s = ((s.forward (n + 1)).progress, s.forward (n + 1)) := by
  rw [run_eq_runBatch]
  induction n generalizing s with
  | zero =>
    rw [runBatch, forward_succ, forward_zero, ← fst_step]
    split
    . next hstep => rw [hstep]
    . next hstep => rw [hstep, runBatch]
  | succ n ih =>
    have hprogress := s.fst_step
    rw [runBatch, forward_succ]
    split
    . next hstep =>
      rw [hstep] at hprogress ⊢
      rw [forward_of_halted hprogress.symm, ← hprogress]
    . next s' hstep =>
      rw [hstep]
      exact ih s'

theorem snd_run (n : Nat) (s : Session ω) : (run n s).2 = s.forward n := by
  cases n with
  | zero => rw [run_zero, forward_zero]
  | succ n => rw [run_succ]

theorem fst_run {n : Nat} (hn : 0 < n) (s : Session ω) : (run n s).1 = (run n s).2.progress := by
  obtain ⟨k, rfl⟩ := Nat.exists_eq_add_one.mpr hn
  rw [run_succ]

theorem run_eq (n : Nat) (s : Session ω) :
    (run n s).2.config = s.machine.next^[n] s.config
      ∧ (0 < n → (run n s).1 = (run n s).2.progress) :=
  ⟨by rw [snd_run, config_forward], fun hn => fst_run hn s⟩

theorem run_of_step_halted {s : Session ω} {v : Verdict} (h : s.step.1 = .halted v) (n : Nat) :
    run (n + 1) s = s.step := by
  rw [run_eq_runBatch, runBatch]
  cases hstep : s.step with
  | mk p s' =>
    rw [hstep] at h
    cases h
    rfl

theorem state_of_run {s : Session ω} {n : Nat} {v : Verdict} (h : (run n s).1 = .halted v) :
    (s.machine.next^[n] s.config).state = v.state := by
  obtain ⟨hconfig, hprogress⟩ := run_eq n s
  have hpos : 0 < n := by
    apply Nat.pos_of_ne_zero
    rintro rfl
    rw [run_zero] at h
    cases h
  rw [hprogress hpos] at h
  rw [← hconfig, config, state_of_progress h]

theorem verdict_unique {s : Session ω} {n n' : Nat} {v v' : Verdict}
    (h : (run n s).1 = .halted v) (h' : (run n' s).1 = .halted v') : v = v' := by
  have hn := state_of_run h
  have hn' := state_of_run h'
  have hsame := @Machine.halts_unique s.machine s.config n n'
    (by rw [hn]; exact Machine.isTerminal_state v) (by rw [hn']; exact Machine.isTerminal_state v')
  rw [hsame, hn'] at hn
  have := congrArg Verdict.ofState? hn
  rw [Verdict.ofState?_state, Verdict.ofState?_state, Option.some.injEq] at this
  exact this.symm

theorem exists_run_halted_iff {s : Session ω} {v : Verdict} {tapes : List Tape} :
    (∃ n s', run n s = (.halted v, s') ∧ s'.tapes = tapes)
      ↔ ∃ n, s.machine.next^[n] s.config = ⟨v.state, tapes⟩ := by
  constructor
  . rintro ⟨n, s', hrun, rfl⟩
    refine ⟨n, ?_⟩
    have hstate := state_of_run (congrArg Prod.fst hrun)
    rw [← (run_eq n s).1, hrun] at hstate ⊢
    rw [← hstate]
    rfl
  . rintro ⟨n, hn⟩
    obtain ⟨hconfig, hprogress⟩ := run_eq (n + 1) s
    rw [Function.iterate_succ_apply', hn,
      Machine.next_of_terminal _ (Machine.isTerminal_state v)] at hconfig
    have hstate : (run (n + 1) s).2.state = v.state := congrArg Config.state hconfig
    have hhalted : (run (n + 1) s).1 = .halted v := by
      rw [hprogress (Nat.succ_pos n), progress, Progress.ofState, hstate, Verdict.ofState?_state]
    exact ⟨n + 1, (run (n + 1) s).2, Prod.ext hhalted rfl, congrArg Config.tapes hconfig⟩

end Session

namespace Draft

inductive Step (d : Draft) : String × Tape → String × Tape → Prop where
  | rule {state next : String} {t : Tape} {a : Action} (running : isTerminal state = false)
      (accepts : d.alphabet.accepts t.focus = true)
      (lookup : d.states.lookup state t.focus = some (.single a next)) :
      Step d (state, t) (next, a.apply t)

/-- By its rules, in at least one step, the draft gets from what is seen in one state to another. -/
def Reaches (d : Draft) (state : String) (v : View) (state' : String) (v' : View) : Prop :=
  ∀ t : Tape, t.view = v →
    ∃ t' : Tape, t'.view = v' ∧ Relation.TransGen d.Step (state, t) (state', t')

/-- What can be done by the rules of one draft can be done by the rules of the other. -/
structure Below (d d' : Draft) : Prop where
  accepts : ∀ c, d.alphabet.accepts c = true → d'.alphabet.accepts c = true
  lookup : ∀ s c o, d.states.lookup s c = some o → d'.states.lookup s c = some o

namespace Below

theorem refl (d : Draft) : d.Below d := ⟨fun _ h => h, fun _ _ _ h => h⟩

theorem trans {d d' d'' : Draft} (h : d.Below d') (h' : d'.Below d'') : d.Below d'' :=
  ⟨fun c hc => h'.accepts c (h.accepts c hc), fun s c o ho => h'.lookup s c o (h.lookup s c o ho)⟩

theorem step {d d' : Draft} (h : d.Below d') {x y : String × Tape} (hxy : d.Step x y) :
    d'.Step x y := by
  cases hxy with
  | rule running accepts lookup =>
    exact .rule running (h.accepts _ accepts) (h.lookup _ _ _ lookup)

theorem reaches {d d' : Draft} (h : d.Below d') {s s' : String} {v v' : View}
    (hs : d.Reaches s v s' v') : d'.Reaches s v s' v' := by
  intro t ht
  obtain ⟨t', ht', hsteps⟩ := hs t ht
  exact ⟨t', ht', Relation.TransGen.mono (fun _ _ hxy => h.step hxy) _ _ hsteps⟩

end Below

namespace Reaches

variable {d : Draft} {s s' s'' : String} {v v' v'' : View}

theorem trans (h : d.Reaches s v s' v') (h' : d.Reaches s' v' s'' v'') :
    d.Reaches s v s'' v'' := by
  intro t ht
  obtain ⟨t', ht', hsteps⟩ := h t ht
  obtain ⟨t'', ht'', hsteps'⟩ := h' t' ht'
  exact ⟨t'', ht'', hsteps.trans hsteps'⟩

theorem of_rule {a : Action} (hrunning : isTerminal s = false)
    (haccepts : d.alphabet.accepts v.focus = true)
    (hlookup : d.states.lookup s v.focus = some (.single a s'))
    (hview : ∀ t : Tape, t.view = v → (a.apply t).view = v') : d.Reaches s v s' v' := by
  intro t ht
  have hfocus : t.focus = v.focus := by rw [← ht, Tape.focus_view]
  refine ⟨a.apply t, hview t ht, .single (.rule hrunning ?_ ?_)⟩
  . rwa [hfocus]
  . rwa [hfocus]

end Reaches

theorem next_of_step {d : Draft} {x y : String × Tape} (h : d.Step x y) :
    d.compile.next ⟨x.1, [x.2]⟩ = ⟨y.1, [y.2]⟩ := by
  cases h with
  | @rule state next t a running accepts lookup =>
    have halphabet : d.compile.alphabet = d.alphabet := rfl
    have hrule : d.compile.rule? state t.focus = some (.single a next) := by
      rw [Machine.rule?, halphabet, if_pos accepts]
      exact lookup
    rw [Machine.next, if_neg (by simp [running])]
    simp only [Session.key, Machine.lookup, hrule, Option.getD_some]
    rfl

theorem next_of_lookup_eq_none {d : Draft} (hphysical : d.compile.physicalTapes = 1) {s : String}
    {t : Tape} (hrunning : isTerminal s = false) (h : d.states.lookup s t.focus = none) :
    ∃ t', d.compile.next ⟨s, [t]⟩ = ⟨Verdict.reject.state, [t']⟩
      ∧ t'.view = (t.view.write .blank).move .right := by
  have hrule : d.compile.rule? s t.focus = none := by
    rw [Machine.rule?]
    split
    . exact h
    . rfl
  refine ⟨_, ?_, Action.view_write .blank .right t⟩
  simp [Machine.next, hrunning, Machine.lookup, Session.key, hrule, Machine.fallback, hphysical,
    Outcome.apply, Outcome.applyAll]

theorem iterate_next_of_steps {d : Draft} {x y : String × Tape}
    (h : Relation.TransGen d.Step x y) :
    ∃ k, 0 < k ∧ d.compile.next^[k] ⟨x.1, [x.2]⟩ = ⟨y.1, [y.2]⟩ := by
  induction h with
  | single h => exact ⟨1, Nat.one_pos, next_of_step h⟩
  | tail _ h ih =>
    obtain ⟨k, hk, hnext⟩ := ih
    refine ⟨k + 1, Nat.succ_pos k, ?_⟩
    rw [Function.iterate_succ_apply', hnext, next_of_step h]

end Draft

end TuringLowering
