import Mathlib.Logic.Relation
import TuringLowering.Proofs.ByteOrder
import TuringLowering.Proofs.Reachability

/-!
This module contains the verification of the diagnosis of a machine. The search for the states that rules
lead to empties its queue with exactly these, and the defect reported is the first one there is, with all the
states that have it in the order of their bytes.
-/

namespace TuringLowering

/-- The names listed are those with a property, each once and in the order of their bytes. -/
structure Lists (names : List String) (p : String → Prop) : Prop where
  mem_iff : ∀ name, name ∈ names ↔ p name
  nodup : names.Nodup
  ascending : names.Pairwise fun a b => bytes a < bytes b

theorem ascending_insertName {name : String} {names : List String} (h : names.Pairwise (· < ·)) :
    (insertName name names).Pairwise (· < ·) := by
  induction names with
  | nil => exact List.pairwise_singleton _ _
  | cons other names ih =>
    obtain ⟨hother, hnames⟩ := List.pairwise_cons.mp h
    unfold insertName
    split
    . next hlt =>
      refine List.pairwise_cons.mpr ⟨fun after hafter => ?_, h⟩
      rcases List.mem_cons.mp hafter with rfl | hafter
      . exact hlt
      . exact lt_trans hlt (hother after hafter)
    . next hle =>
      split
      . exact h
      . next hne =>
        refine List.pairwise_cons.mpr ⟨fun after hafter => ?_, ih hnames⟩
        rcases mem_insertName.mp hafter with rfl | hafter
        . exact lt_of_le_of_ne (not_lt.mp hle) (Ne.symm hne)
        . exact hother after hafter

theorem ascending_sortNames (names : List String) : (sortNames names).Pairwise (· < ·) := by
  induction names with
  | nil => exact List.Pairwise.nil
  | cons name names ih => exact ascending_insertName ih

theorem lists_sortNames {names : List String} {p : String → Prop} (h : ∀ name, name ∈ names ↔ p name) :
    Lists (sortNames names) p where
  mem_iff name := mem_sortNames.trans (h name)
  nodup := (ascending_sortNames names).imp ne_of_lt
  ascending := (ascending_sortNames names).imp bytes_lt_bytes

theorem Lists.isEmpty_iff {names : List String} {p : String → Prop} (h : Lists names p) :
    names.isEmpty = true ↔ ∀ name, ¬ p name := by
  rw [List.isEmpty_iff, List.eq_nil_iff_forall_not_mem]
  exact forall_congr' fun name => not_congr (h.mem_iff name)

namespace Machine

variable {m : Machine}

def HasRules (m : Machine) (state : String) : Prop :=
  ∃ table, m.states.find? state = some table ∧ table.isEmpty = false

/-- Some rule of a state leads to another one. -/
def LeadsTo (m : Machine) (origin next : String) : Prop :=
  ∃ table, m.states.find? origin = some table ∧ ∃ o ∈ table.outcomes, o.next = next

/-- Some number of rules, one after the other, lead to a state from the start. -/
def Reached (m : Machine) (state : String) : Prop := Relation.ReflTransGen m.LeadsTo m.start state

theorem isDefined_iff {state : String} : m.isDefined state = true ↔ m.HasRules state := by
  unfold isDefined HasRules
  cases m.states.find? state <;> simp

theorem mem_nextStates_iff {origin next : String} : next ∈ m.nextStates origin ↔ m.LeadsTo origin next := by
  unfold nextStates LeadsTo
  cases m.states.find? origin <;> simp

theorem HasRules.mem_names {state : String} (h : m.HasRules state) : state ∈ m.states.names := by
  obtain ⟨table, hfind, _⟩ := h
  by_contra hmem
  rw [StateTables.find?_eq_none_iff.mpr hmem] at hfind
  cases hfind

theorem reached_iff_reachable {state : String} : m.Reached state ↔ m.Reachable state := by
  constructor
  . intro h
    induction h with
    | refl => exact .start
    | tail _ hlead ih => exact .next ih (mem_nextStates_iff.mpr hlead)
  . intro h
    induction h with
    | start => exact .refl
    | next _ hnext ih => exact .tail ih (mem_nextStates_iff.mp hnext)

/-- A visit of the search, which takes the first state from the queue. -/
def visit (m : Machine) : List String × List String → List String × List String
  | ([], reached) => ([], reached)
  | (state :: queue, reached) =>
    if state ∈ reached then (queue, reached) else (queue ++ m.nextStates state, state :: reached)

/-- What is queued and the rules of the states not visited, which bound the visits to come. -/
def work (m : Machine) (stage : List String × List String) : Nat := stage.1.length + m.rulesLeft stage.2

theorem visit_cons (state : String) (queue reached : List String) :
    m.visit (state :: queue, reached) =
      if state ∈ reached then (queue, reached) else (queue ++ m.nextStates state, state :: reached) := rfl

theorem iterate_visit_nil (reached : List String) (n : Nat) : m.visit^[n] ([], reached) = ([], reached) :=
  Function.iterate_fixed rfl n

theorem explore_eq_iterate_visit (n : Nat) (queue reached : List String) :
    m.explore n queue reached = (m.visit^[n] (queue, reached)).2 := by
  fun_induction explore m n queue reached with
  | case1 => rfl
  | case2 n reached => rw [iterate_visit_nil]
  | case3 n state queue reached hvisited ih =>
    rw [ih, Function.iterate_succ_apply, visit_cons, if_pos hvisited]
  | case4 n state queue reached hnew ih => rw [ih, Function.iterate_succ_apply, visit_cons, if_neg hnew]

theorem work_visit_lt {state : String} {queue reached : List String} :
    m.work (m.visit (state :: queue, reached)) < m.work (state :: queue, reached) := by
  unfold work
  rw [visit_cons]
  split
  . simp
  . next hnew =>
    have hleft : m.rulesLeft (state :: reached) + (m.nextStates state).length ≤ m.rulesLeft reached :=
      rulesLeft_cons hnew
    dsimp only
    rw [List.length_append, List.length_cons]
    omega

theorem iterate_visit_queue {n : Nat} {stage : List String × List String} (h : m.work stage ≤ n) :
    (m.visit^[n] stage).1 = [] := by
  induction n generalizing stage with
  | zero =>
    have hqueue : stage.1.length = 0 := Nat.eq_zero_of_add_eq_zero_right (Nat.le_zero.mp h)
    exact List.length_eq_zero_iff.mp hqueue
  | succ n ih =>
    obtain ⟨queue, reached⟩ := stage
    cases queue with
    | nil => rw [iterate_visit_nil]
    | cons state queue =>
      rw [Function.iterate_succ_apply]
      exact ih (Nat.le_of_lt_succ (Nat.lt_of_lt_of_le work_visit_lt h))

/-- The search ends, since its queue is empty after as many visits as it is given. -/
theorem iterate_visit_reachable (m : Machine) :
    m.visit^[m.ruleCount + 2] ([m.start], []) = ([], m.reachable) := by
  apply Prod.ext
  . apply iterate_visit_queue
    unfold work
    rw [rulesLeft_nil, List.length_singleton]
    omega
  . exact (explore_eq_iterate_visit _ _ _).symm

theorem visit_sound {stage : List String × List String} (h : ∀ s, s ∈ stage.1 ∨ s ∈ stage.2 → m.Reachable s) :
    ∀ s, s ∈ (m.visit stage).1 ∨ s ∈ (m.visit stage).2 → m.Reachable s := by
  obtain ⟨queue, reached⟩ := stage
  cases queue with
  | nil => exact h
  | cons state queue =>
    have hstate : m.Reachable state := h state (.inl List.mem_cons_self)
    intro s hs
    rw [visit_cons] at hs
    split at hs
    . exact h s (hs.imp_left (List.mem_cons_of_mem _))
    . simp only [List.mem_append, List.mem_cons] at hs
      rcases hs with (hs | hs) | rfl | hs
      . exact h s (.inl (List.mem_cons_of_mem _ hs))
      . exact .next hstate hs
      . exact hstate
      . exact h s (.inr hs)

theorem iterate_visit_sound {stage : List String × List String}
    (h : ∀ s, s ∈ stage.1 ∨ s ∈ stage.2 → m.Reachable s) (n : Nat) :
    ∀ s, s ∈ (m.visit^[n] stage).1 ∨ s ∈ (m.visit^[n] stage).2 → m.Reachable s := by
  induction n with
  | zero => exact h
  | succ n ih =>
    rw [Function.iterate_succ_apply']
    exact visit_sound ih

theorem mem_reachable_iff {state : String} : state ∈ m.reachable ↔ m.Reached state := by
  rw [reached_iff_reachable]
  refine ⟨fun h => ?_, Reachable.mem_reachable⟩
  have hsound := @iterate_visit_sound m ([m.start], [])
    (by rintro s (hs | hs)
        . exact List.mem_singleton.mp hs ▸ .start
        . cases hs) (m.ruleCount + 2)
  rw [iterate_visit_reachable] at hsound
  exact hsound state (.inr h)

theorem lists_undefinedStates (m : Machine) :
    Lists m.undefinedStates fun state =>
      (∃ origin, m.LeadsTo origin state) ∧ isTerminal state = false ∧ ¬ m.HasRules state := by
  refine lists_sortNames fun state => ?_
  rw [List.mem_filter, List.mem_flatMap, Bool.and_eq_true, Bool.not_eq_true', Bool.not_eq_true',
    ← isDefined_iff, Bool.not_eq_true]
  refine and_congr_left fun _ => exists_congr fun origin => ?_
  rw [mem_nextStates_iff]
  exact and_iff_right_of_imp fun h => mem_names_of_mem_nextStates (mem_nextStates_iff.mpr h)

theorem lists_unreachableStates (m : Machine) :
    Lists m.unreachableStates fun state => m.HasRules state ∧ ¬ m.Reached state := by
  refine lists_sortNames fun state => ?_
  rw [List.mem_filter, Bool.and_eq_true, isDefined_iff, Bool.not_eq_true', ← Bool.not_eq_true,
    List.contains_iff_mem, mem_reachable_iff]
  exact and_iff_right_of_imp fun h => h.1.mem_names

end Machine

/--
The search from the start empties its queue, and has then visited exactly the states that rules lead to. The
diagnosis finds no defect in a machine if and only if its start has rules, every state that a rule leads to
halts or has rules, and every state with rules is one that rules lead to. Otherwise it reports the first of
these that fails, with exactly the states for which it does, each once and in the order of their bytes.
-/
theorem diagnosis_reports_first_defect (m : Machine) :
    let started := m.HasRules m.start
    let settled := ∀ origin state, m.LeadsTo origin state → isTerminal state = true ∨ m.HasRules state
    let connected := ∀ state, m.HasRules state → m.Reached state
    (∃ n, m.visit^[n] ([m.start], []) = ([], m.reachable))
      ∧ (∀ state, state ∈ m.reachable ↔ m.Reached state)
      ∧ (m.diagnose = none ↔ started ∧ settled ∧ connected)
      ∧ (¬ started → m.diagnose = some (.startWithoutRules m.start))
      ∧ (started ∧ ¬ settled → ∃ names, m.diagnose = some (.undefinedStates names)
          ∧ Lists names fun state =>
              (∃ origin, m.LeadsTo origin state) ∧ isTerminal state = false ∧ ¬ m.HasRules state)
      ∧ (started ∧ settled ∧ ¬ connected → ∃ names, m.diagnose = some (.unreachableStates names)
          ∧ Lists names fun state => m.HasRules state ∧ ¬ m.Reached state) := by
  intro started settled connected
  have hstarted : m.isDefined m.start = true ↔ started := Machine.isDefined_iff
  have hsettled : m.undefinedStates.isEmpty = true ↔ settled := by
    rw [m.lists_undefinedStates.isEmpty_iff]
    grind
  have hconnected : m.unreachableStates.isEmpty = true ↔ connected := by
    rw [m.lists_unreachableStates.isEmpty_iff]
    grind
  refine ⟨⟨_, m.iterate_visit_reachable⟩, fun state => Machine.mem_reachable_iff, ?_⟩
  rw [← hstarted, ← hsettled, ← hconnected]
  unfold Machine.diagnose
  dsimp only
  refine ⟨by grind, by grind, ?_, ?_⟩
  . rintro ⟨hstart, hundefined⟩
    exact ⟨m.undefinedStates, by simp [hstart, hundefined], m.lists_undefinedStates⟩
  . rintro ⟨hstart, hundefined, hunreachable⟩
    exact ⟨m.unreachableStates, by simp [hstart, hundefined, hunreachable], m.lists_unreachableStates⟩

/-- A start without rules, rules that lead to two states without any, and rules that no others lead to. -/
theorem diagnosis_reports_first_defect_each :
    let rule (origin next : String) : Request := .directive (.pass origin .any .right next)
    let machine (requests : List Request) : Machine := ((Draft.new "q").receive requests).compile
    let dangling := machine [rule "q" "z", rule "r" "a"]
    let orphaned := machine [rule "q" Verdict.accept.state, rule "r" Verdict.accept.state]
    (machine []).diagnose = some (.startWithoutRules "q")
      ∧ Lists ["a", "z"] (fun state =>
          (∃ origin, dangling.LeadsTo origin state) ∧ isTerminal state = false ∧ ¬ dangling.HasRules state)
      ∧ Lists ["r"] fun state => orphaned.HasRules state ∧ ¬ orphaned.Reached state := by
  intro rule machine dangling orphaned
  refine ⟨?_, ?_, ?_⟩
  . obtain ⟨_, _, _, hstart, _⟩ := diagnosis_reports_first_defect (machine [])
    refine hstart fun h => ?_
    exact absurd (Machine.isDefined_iff.mpr h) (by decide +kernel)
  . have hdiagnose : dangling.diagnose = some (.undefinedStates ["a", "z"]) := by decide +kernel
    have hstarted : dangling.HasRules dangling.start := Machine.isDefined_iff.mp (by decide +kernel)
    have hlead : dangling.LeadsTo "q" "z" := Machine.mem_nextStates_iff.mp (by decide +kernel)
    have hbare : ¬ dangling.HasRules "z" := fun h => absurd (Machine.isDefined_iff.mpr h) (by decide +kernel)
    obtain ⟨_, _, _, _, hundefined, _⟩ := diagnosis_reports_first_defect dangling
    obtain ⟨names, hnames, hlists⟩ := hundefined ⟨hstarted, fun hsettled =>
      (hsettled "q" "z" hlead).elim (fun h => absurd h (by decide)) hbare⟩
    rw [hdiagnose, Option.some.injEq, Defect.undefinedStates.injEq] at hnames
    rwa [hnames]
  . have hdiagnose : orphaned.diagnose = some (.unreachableStates ["r"]) := by decide +kernel
    have hstarted : orphaned.HasRules orphaned.start := Machine.isDefined_iff.mp (by decide +kernel)
    obtain ⟨_, _, hnone, _, hundefined, hunreachable⟩ := diagnosis_reports_first_defect orphaned
    rw [hdiagnose] at hnone hundefined hunreachable
    have hsettled := by_contra fun h => nomatch hundefined ⟨hstarted, h⟩
    obtain ⟨names, hnames, hlists⟩ := hunreachable ⟨hstarted, hsettled, fun hconnected =>
      nomatch hnone.mpr ⟨hstarted, hsettled, hconnected⟩⟩
    rw [Option.some.injEq, Defect.unreachableStates.injEq] at hnames
    rwa [hnames]

end TuringLowering
