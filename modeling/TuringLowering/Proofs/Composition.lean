import Mathlib.Data.ENat.Lattice
import TuringLowering.Proofs.Execution

/-!
This module contains the proof that runs compose: into which runs, and these into which batches, the steps of
a machine are split makes no difference.
-/

namespace TuringLowering

namespace Machine

variable {m : Machine} {c : Config}

/-- The number of steps to the first configuration in which the machine has halted, if there is one. -/
noncomputable def haltingTime (m : Machine) (c : Config) : ℕ∞ :=
  ⨅ (k : ℕ) (_ : isTerminal (m.next^[k] c).state = true), (k : ℕ∞)

theorem natCast_le_haltingTime_iff {n : Nat} :
    (n : ℕ∞) ≤ m.haltingTime c ↔ ∀ k < n, isTerminal (m.next^[k] c).state = false := by
  rw [haltingTime, le_iInf₂_iff]
  refine forall_congr' fun k => ?_
  rw [Nat.cast_le, ← Bool.not_eq_true, ← Nat.not_lt]
  exact imp_not_comm

theorem haltingTime_of_terminal (h : isTerminal c.state = true) : m.haltingTime c = 0 := by
  have hzero : m.haltingTime c ≤ (0 : ℕ) := iInf₂_le (0 : ℕ) h
  rwa [Nat.cast_zero, nonpos_iff_eq_zero] at hzero

theorem haltingTime_of_running (h : isTerminal c.state = false) :
    m.haltingTime c = m.haltingTime (m.next c) + 1 := by
  apply ENat.eq_of_forall_natCast_le_iff
  intro n
  cases n with
  | zero => simp
  | succ n =>
    rw [Nat.cast_succ, ENat.add_le_add_iff_right ENat.one_ne_top, ← Nat.cast_succ,
      natCast_le_haltingTime_iff, natCast_le_haltingTime_iff, Nat.forall_lt_succ_left]
    exact and_iff_right h

/-- The configurations that up to `n` steps lead to, the last one that in which the machine halts. -/
def trace (m : Machine) : Nat → Config → List Config
  | 0, _ => []
  | n + 1, c => if isTerminal c.state then [] else m.next c :: m.trace n (m.next c)

theorem trace_of_terminal (h : isTerminal c.state = true) (n : Nat) : m.trace n c = [] := by
  cases n with
  | zero => rfl
  | succ n => rw [trace, if_pos h]

theorem trace_of_running (h : isTerminal c.state = false) (n : Nat) :
    m.trace (n + 1) c = m.next c :: m.trace n (m.next c) := by
  rw [trace, if_neg (by rw [h]; exact Bool.false_ne_true)]

theorem length_trace_le (n : Nat) (c : Config) : (m.trace n c).length ≤ n := by
  induction n generalizing c with
  | zero => exact Nat.le_refl 0
  | succ n ih =>
    rw [trace]
    split
    . exact Nat.zero_le _
    . exact Nat.succ_le_succ (ih _)

theorem length_trace (n : Nat) (c : Config) :
    ((m.trace n c).length : ℕ∞) = min (n : ℕ∞) (m.haltingTime c) := by
  induction n generalizing c with
  | zero => simp [trace]
  | succ n ih =>
    cases h : isTerminal c.state with
    | true => rw [trace_of_terminal h, haltingTime_of_terminal h]; simp
    | false =>
      rw [trace_of_running h, haltingTime_of_running h, List.length_cons, Nat.cast_succ, Nat.cast_succ, ih,
        min_add_add_right]

end Machine

namespace Session

variable {ω : Type}

theorem progress_eq_halted_iff {s : Session ω} {v : Verdict} :
    s.progress = .halted v ↔ s.verdict? = some v := by
  unfold progress Progress.ofState verdict?
  cases Verdict.ofState? s.state <;> simp

variable [Observer ω]

def visit (s : Session ω) (c : Config) : Session ω :=
  { s with state := c.state, tapes := c.tapes, steps := s.steps + 1 }.notify

theorem advance_eq_visit {s : Session ω} (h : s.progress = .running) :
    s.advance = s.visit (s.machine.next s.config) := by
  have hconfig := s.config_step
  rw [step_of_running h] at hconfig
  rw [← hconfig]
  rfl

theorem forward_eq_foldl_visit (n : Nat) (s : Session ω) :
    s.forward n = (s.machine.trace n s.config).foldl visit s := by
  induction n generalizing s with
  | zero => rfl
  | succ n ih =>
    cases h : s.progress with
    | halted v =>
      rw [forward_of_halted h, Machine.trace_of_terminal (isTerminal_of_progress h)]
      rfl
    | running =>
      rw [forward_succ, ih, machine_step, config_step, step_of_running h, advance_eq_visit h,
        Machine.trace_of_running (progress_eq_running_iff.mp h)]
      rfl

theorem steps_foldl_visit (cs : List Config) (s : Session ω) :
    (cs.foldl visit s).steps = s.steps + cs.length := by
  induction cs generalizing s with
  | nil => rfl
  | cons c cs ih =>
    rw [List.foldl_cons, ih, List.length_cons, Nat.add_comm cs.length, ← Nat.add_assoc]
    rfl

theorem steps_forward (n : Nat) (s : Session ω) :
    (s.forward n).steps = s.steps + (s.machine.trace n s.config).length := by
  rw [forward_eq_foldl_visit, steps_foldl_visit]

theorem observer_foldl_visit (cs : List Config) (s : Session ω) :
    (cs.foldl visit s).observer
      = cs.foldl (fun observer c => Observer.observe c.state c.tapes observer) s.observer := by
  induction cs generalizing s with
  | nil => rfl
  | cons c cs ih => exact ih (s.visit c)

/--
Two runs leave the session as one run does that is as long as both, and as single steps do. A run makes as
many steps as it may and the machine can, and its observer is told of the configuration after each of them.
Unless it may not make any step, it tells the verdict that the machine is found with.
-/
theorem runs_compose (s : Session ω) (m n : Nat) :
    ((s.run m).2.run n).2 = (s.run (m + n)).2
      ∧ (s.run (m + n)).2 = (fun t : Session ω => t.step.2)^[m + n] s
      ∧ ((s.run m).2.steps : ℕ∞) = s.steps + min (m : ℕ∞) (s.machine.haltingTime s.config)
      ∧ (s.run m).2.observer = (s.machine.trace m s.config).foldl
          (fun observer c => Observer.observe c.state c.tapes observer) s.observer
      ∧ (1 ≤ m → ∀ v, (s.run m).1 = .halted v ↔ (s.run m).2.verdict? = some v) := by
  refine ⟨?_, snd_run (m + n) s, ?_, ?_, fun hm v => ?_⟩
  . rw [snd_run, snd_run, snd_run, forward_add]
  . rw [snd_run, steps_forward, Nat.cast_add, Machine.length_trace]
  . rw [snd_run, forward_eq_foldl_visit, observer_foldl_visit]
  . rw [fst_run hm, progress_eq_halted_iff]

/-- A machine walks over its input. The first run takes two batches, and it halts in the second run. -/
theorem runs_compose_rejecting :
    let walk : RuleTable := { exact := [(.literal "a", .single (.preserve .right) "q")] }
    let d := { Draft.new "q" with alphabet := .declare [.literal "a"] [], states := ⟨[("q", walk)]⟩ }
    let s := (Session.new d.compile ({} : History)).load (List.replicate 510 (.literal "a"))
    (1 ≤ 505 ∧ ∀ v, (s.run 505).1 ≠ .halted v)
      ∧ (1 ≤ 700 ∧ ((s.run 505).2.run 700).1 = .halted .reject)
      ∧ ((s.run 505).2.run 700).2 = (s.run 1205).2 := by
  intro walk d s
  obtain ⟨hcompose, -, -, -, hverdict⟩ := runs_compose s 505 700
  obtain ⟨-, -, -, -, hverdict'⟩ := runs_compose (s.run 505).2 700 0
  -- Each step takes one cell of the input from one side of the head to the other.
  have hwalk (j k : Nat) (before : List Cell) :
      d.compile.next^[j] ⟨"q", [⟨before, .literal "a", List.replicate (j + k) (.literal "a") ++ [.blank]⟩]⟩
        = ⟨"q", [⟨List.replicate j (.literal "a") ++ before, .literal "a",
            List.replicate k (.literal "a") ++ [.blank]⟩]⟩ := by
    induction j generalizing before with
    | zero => rw [Nat.zero_add]; rfl
    | succ j ih =>
      have hstep (after : List Cell) :
          d.compile.next ⟨"q", [⟨before, .literal "a", .literal "a" :: after⟩]⟩
            = ⟨"q", [(Tape.mk (.literal "a" :: before) (.literal "a") after).pad]⟩ := rfl
      rw [Function.iterate_succ_apply, Nat.succ_add, List.replicate_succ, List.cons_append, hstep]
      have hpad : (Tape.mk (.literal "a" :: before) (.literal "a")
          (List.replicate (j + k) (.literal "a") ++ [.blank])).pad
            = ⟨.literal "a" :: before, .literal "a", List.replicate (j + k) (.literal "a") ++ [.blank]⟩ := by
        cases j + k <;> rfl
      rw [hpad, ih, List.replicate_succ', List.append_assoc, List.singleton_append]
  have hfound (n : Nat) : (s.run n).2.verdict? = Verdict.ofState? (d.compile.next^[n] s.config).state :=
    congrArg (fun c : Config => Verdict.ofState? c.state) (run_eq n s).1
  have hrunning : (s.run 505).2.verdict? = none := by
    have hstate : (d.compile.next^[505] s.config).state = "q" := congrArg Config.state (hwalk 505 4 [])
    rw [hfound, hstate]
    decide
  have hrejected : (s.run 1205).2.verdict? = some .reject := by
    -- After 509 steps the head is on the last cell, and no rule reads the empty cell behind it.
    have hend : (d.compile.next^[511] s.config).state = Verdict.reject.state := by
      have hlast := congrArg (fun c => (d.compile.next^[2] c).state) (hwalk 509 0 [])
      rw [← Function.iterate_add_apply] at hlast
      exact hlast
    have hterminal : isTerminal (d.compile.next^[511] s.config).state = true := by
      rw [hend]
      exact Machine.isTerminal_state .reject
    rw [hfound, Function.iterate_add_apply d.compile.next 694 511,
      Machine.iterate_next_of_terminal _ hterminal, hend]
    decide
  refine ⟨⟨by decide, fun v => ?_⟩, ⟨by decide, ?_⟩, hcompose⟩
  . rw [Ne, hverdict (by decide), hrunning]
    nofun
  . rw [hverdict' (by decide), hcompose]
    exact hrejected

end Session

end TuringLowering
