import Mathlib.Algebra.GroupWithZero.Nat
import TuringLowering.Diagnosis
import TuringLowering.Proofs.Execution
import TuringLowering.Proofs.Operation

/-!
This module contains the connection between the states that rules lead to and the states that runs enter.
The search for the former finds all of them, and a run only ever leaves them to reject.
-/

namespace TuringLowering

namespace RuleTable

theorem mem_outcomes_of_lookup {t : RuleTable} {c : Cell} {o : Outcome} (h : t.lookup c = some o) :
    o ∈ t.outcomes := by
  unfold outcomes
  simp only [List.mem_append, List.mem_map, Option.mem_toList, or_assoc]
  unfold lookup listed? at h
  cases hexact : t.exact.find? (·.1 = c) with
  | some rule =>
    obtain rfl : rule.2 = o := by simpa [hexact] using h
    exact .inl ⟨rule, List.mem_of_find?_eq_some hexact, rfl⟩
  | none =>
    cases hgroup : t.groups.find? (c ∈ ·.cells) with
    | some group =>
      obtain rfl : group.outcome = o := by simpa [hexact, hgroup] using h
      exact .inr (.inl ⟨group, List.mem_of_find?_eq_some hgroup, rfl⟩)
    | none => exact .inr (.inr (by simpa [hexact, hgroup] using h))

end RuleTable

theorem mem_insertName {name other : String} {names : List String} :
    other ∈ insertName name names ↔ other = name ∨ other ∈ names := by
  induction names with
  | nil => simp [insertName]
  | cons first names ih =>
    unfold insertName
    split
    . simp
    . split
      . next heq => simp [heq]
      . rw [List.mem_cons, ih, List.mem_cons, or_left_comm]

theorem mem_sortNames {name : String} {names : List String} : name ∈ sortNames names ↔ name ∈ names := by
  induction names with
  | nil => simp [sortNames]
  | cons first names ih =>
    have hsort : sortNames (first :: names) = insertName first (sortNames names) := rfl
    rw [hsort, mem_insertName, ih, List.mem_cons]

namespace Machine

variable {m : Machine}

theorem mem_nextStates_of_rule? {state : String} {c : Cell} {o : Outcome}
    (h : m.rule? state c = some o) : o.next ∈ m.nextStates state := by
  unfold rule? at h
  split at h
  . unfold StateTables.lookup at h
    unfold nextStates
    cases hfind : m.states.find? state with
    | none => simp [hfind] at h
    | some table =>
      rw [hfind, Option.bind_some] at h
      exact List.mem_map_of_mem (RuleTable.mem_outcomes_of_lookup h)
  . cases h

theorem mem_names_of_mem_nextStates {state next : String} (h : next ∈ m.nextStates state) :
    state ∈ m.states.names := by
  by_contra hmem
  rw [nextStates, StateTables.find?_eq_none_iff.mpr hmem] at h
  cases h

def rulesLeft (m : Machine) (reached : List String) : Nat :=
  (m.states.entries.map fun e => if e.1 ∈ reached then 0 else e.2.entries.length).sum

theorem rulesLeft_nil (m : Machine) : m.rulesLeft [] = m.ruleCount := by
  simp [rulesLeft, ruleCount, List.length_flatMap]

theorem rulesLeft_cons {state : String} {reached : List String} (h : state ∉ reached) :
    m.rulesLeft (state :: reached) + (m.nextStates state).length ≤ m.rulesLeft reached := by
  have hrest (entries : List (String × RuleTable)) :
      (entries.map fun e => if e.1 ∈ state :: reached then 0 else e.2.entries.length).sum
        ≤ (entries.map fun e => if e.1 ∈ reached then 0 else e.2.entries.length).sum := by
    induction entries with
    | nil => simp
    | cons e entries ih =>
      have he : (if e.1 ∈ state :: reached then 0 else e.2.entries.length)
          ≤ if e.1 ∈ reached then 0 else e.2.entries.length := by
        split
        . exact Nat.zero_le _
        . next he => exact Nat.le_of_eq (if_neg fun h => he (List.mem_cons_of_mem _ h)).symm
      rw [List.map_cons, List.sum_cons, List.map_cons, List.sum_cons]
      exact Nat.add_le_add he ih
  unfold rulesLeft nextStates StateTables.find?
  induction m.states.entries with
  | nil => simp
  | cons e entries ih =>
    by_cases he : e.1 = state
    . have hlength : e.2.outcomes.length = e.2.entries.length := by
        simp [RuleTable.outcomes_eq_map_entries]
      simp only [he, List.map_cons, List.mem_cons, true_or, if_true, h, if_false, List.sum_cons,
        List.find?_cons_of_pos, decide_true, Option.map_some, List.length_map, hlength]
      have := hrest entries
      simp only [List.mem_cons] at this
      omega
    . have hmem : (e.1 ∈ state :: reached) ↔ e.1 ∈ reached := by simp [he]
      rw [List.map_cons, List.sum_cons, List.map_cons, List.sum_cons,
        List.find?_cons_of_neg (by simpa using he)]
      simp only [hmem]
      omega

/--
The search ends with a set of states that no rule leads out of, if every rule from a state it has visited
leads to a state that it has visited or that is queued.
-/
theorem explore_closed {n : Nat} {queue reached : List String}
    (hfuel : queue.length + m.rulesLeft reached < n)
    (hqueued : ∀ s ∈ reached, ∀ s' ∈ m.nextStates s, s' ∈ reached ∨ s' ∈ queue) :
    (∀ s, s ∈ reached ∨ s ∈ queue → s ∈ m.explore n queue reached)
      ∧ ∀ s ∈ m.explore n queue reached, ∀ s' ∈ m.nextStates s, s' ∈ m.explore n queue reached := by
  fun_induction explore m n queue reached with
  | case1 => omega
  | case2 n reached =>
    refine ⟨fun s hs => hs.elim id nofun, fun s hs s' hs' => ?_⟩
    exact (hqueued s hs s' hs').elim id nofun
  | case3 n state queue reached hvisited ih =>
    have hsplit (s : String) (hs : s ∈ reached ∨ s ∈ state :: queue) : s ∈ reached ∨ s ∈ queue := by
      rcases hs with hs | hs
      . exact .inl hs
      . rcases List.mem_cons.mp hs with rfl | hs
        . exact .inl hvisited
        . exact .inr hs
    obtain ⟨hmem, hclosed⟩ := ih (by rw [List.length_cons] at hfuel; omega)
      fun s hs s' hs' => hsplit s' (hqueued s hs s' hs')
    exact ⟨fun s hs => hmem s (hsplit s hs), hclosed⟩
  | case4 n state queue reached hnew ih =>
    have hsplit (s : String) (hs : s ∈ reached ∨ s ∈ state :: queue) :
        s ∈ state :: reached ∨ s ∈ queue ++ m.nextStates state := by
      rcases hs with hs | hs
      . exact .inl (List.mem_cons_of_mem _ hs)
      . rcases List.mem_cons.mp hs with rfl | hs
        . exact .inl List.mem_cons_self
        . exact .inr (List.mem_append_left _ hs)
    have hleft : m.rulesLeft (state :: reached) + (m.nextStates state).length ≤ m.rulesLeft reached :=
      rulesLeft_cons hnew
    obtain ⟨hmem, hclosed⟩ := ih
      (by rw [List.length_append]; rw [List.length_cons] at hfuel; omega)
      (by
        intro s hs s' hs'
        rcases List.mem_cons.mp hs with rfl | hs
        . exact .inr (List.mem_append_right _ hs')
        . exact hsplit s' (hqueued s hs s' hs'))
    exact ⟨fun s hs => hmem s (hsplit s hs), hclosed⟩

theorem Reachable.mem_reachable {state : String} (h : m.Reachable state) : state ∈ m.reachable := by
  obtain ⟨hmem, hclosed⟩ := @explore_closed m (m.ruleCount + 2) [m.start] []
    (by rw [rulesLeft_nil, List.length_singleton]; omega) (fun s hs => nomatch hs)
  induction h with
  | start => exact hmem _ (.inr (List.mem_singleton.mpr rfl))
  | next _ hnext ih => exact hclosed _ ih _ hnext

theorem not_reachable_of_mem_unreachableStates {state : String} (h : state ∈ m.unreachableStates) :
    ¬ m.Reachable state := by
  intro hreachable
  rw [unreachableStates, mem_sortNames, List.mem_filter] at h
  have hmem : m.reachable.contains state = true := List.contains_iff_mem.mpr hreachable.mem_reachable
  rw [hmem] at h
  exact absurd h.2 (by simp)

theorem isDefined_of_reachable (hdiagnose : m.diagnose = none) {state : String}
    (h : m.Reachable state) (hrunning : isTerminal state = false) : m.isDefined state = true := by
  unfold diagnose at hdiagnose
  split at hdiagnose
  . cases hdiagnose
  . next hstart =>
    dsimp only at hdiagnose
    split at hdiagnose
    . cases hdiagnose
    . next hundefined =>
      cases h with
      | start => simpa using hstart
      | next _ hnext =>
        by_contra hstate
        have hmem : state ∈ m.undefinedStates := by
          rw [undefinedStates, mem_sortNames, List.mem_filter, List.mem_flatMap]
          refine ⟨⟨_, mem_names_of_mem_nextStates hnext, hnext⟩, ?_⟩
          simp [hrunning, Bool.eq_false_iff.mpr hstate]
        have hempty : m.undefinedStates = [] := by simpa using hundefined
        rw [hempty] at hmem
        cases hmem

theorem reachable_next {c : Config} (h : m.Reachable c.state ∨ c.state = Verdict.reject.state) :
    m.Reachable (m.next c).state ∨ (m.next c).state = Verdict.reject.state := by
  unfold next
  split
  . exact h
  . next hrunning =>
    have hstate : m.Reachable c.state := by
      rcases h with h | h
      . exact h
      . rw [h, isTerminal_state] at hrunning
        exact absurd rfl hrunning
    dsimp only
    unfold lookup
    cases hrule : m.rule? c.state (Session.key c.tapes) with
    | none => exact .inr rfl
    | some o => exact .inl (.next hstate (mem_nextStates_of_rule? hrule))

theorem reachable_iterate_next {c : Config} (h : c.state = m.start) (k : Nat) :
    m.Reachable (m.next^[k] c).state ∨ (m.next^[k] c).state = Verdict.reject.state := by
  induction k with
  | zero => exact .inl (h ▸ .start)
  | succ k ih =>
    rw [Function.iterate_succ_apply']
    exact reachable_next ih

end Machine

/--
After any number of steps on an input, a machine is in a state that rules lead to from the start, or it
has rejected. So it enters no state that the diagnosis finds unreachable, except to reject; and if the
diagnosis finds no defect, it has rules in every state it enters without halting, and goes without one
only where the cells it reads are foreign or have no rule in that state.
-/
theorem diagnosis_sound_for_runs {ω : Type} [Observer ω] (s : Session ω) (word : List Cell) (k : Nat) :
    let m := s.machine
    let s' := ((s.load word).run k).2
    (s'.state = m.start ∨ s'.state = Verdict.reject.state ∨ m.Reachable s'.state)
      ∧ (∀ states, m.diagnose = some (.unreachableStates states) →
          ∀ state ∈ states, state ≠ Verdict.reject.state → s'.state ≠ state)
      ∧ (m.diagnose = none → isTerminal s'.state = false →
          ∃ table, m.states.find? s'.state = some table ∧ table.isEmpty = false
            ∧ (m.rule? s'.state (Session.key s'.tapes) = none →
                m.alphabet.accepts (Session.key s'.tapes) = false
                  ∨ table.lookup (Session.key s'.tapes) = none)) := by
  intro m s'
  have hconfig : s'.config = m.next^[k] (s.load word).config := (Session.run_eq k (s.load word)).1
  have hstate : m.Reachable s'.state ∨ s'.state = Verdict.reject.state := by
    have := @Machine.reachable_iterate_next m (s.load word).config rfl k
    rwa [← hconfig] at this
  refine ⟨.inr hstate.symm, ?_, ?_⟩
  . rintro states hdiagnose state hmem hreject rfl
    have hstates : m.unreachableStates = states := by
      unfold Machine.diagnose at hdiagnose
      grind
    subst hstates
    rcases hstate with h | h
    . exact Machine.not_reachable_of_mem_unreachableStates hmem h
    . exact hreject h
  . intro hdiagnose hrunning
    have hreachable : m.Reachable s'.state := by
      rcases hstate with h | h
      . exact h
      . rw [h, Machine.isTerminal_state] at hrunning
        cases hrunning
    have hdefined := Machine.isDefined_of_reachable hdiagnose hreachable hrunning
    unfold Machine.isDefined at hdefined
    cases hfind : m.states.find? s'.state with
    | none => simp [hfind] at hdefined
    | some table =>
      refine ⟨table, rfl, by simpa [hfind] using hdefined, fun hrule => ?_⟩
      unfold Machine.rule? at hrule
      split at hrule
      . exact .inr (by simpa [StateTables.lookup, hfind] using hrule)
      . next haccepts => exact .inl (by simpa using haccepts)

/--
A draft with a rule that leads from the start to the end of a run, and one from a state that is never entered.
-/
theorem diagnosis_sound_for_runs_orphan :
    let rule (origin : String) : Request := .directive (.pass origin .any .right Verdict.accept.state)
    let sound := Session.new ((Draft.new "q").receive [rule "q"]).compile ()
    let orphan := Session.new ((Draft.new "q").receive [rule "q", rule "r"]).compile ()
    (sound.machine.diagnose = none
        ∧ ∀ k, isTerminal ((sound.load []).run k).2.state = false →
          ∃ table, sound.machine.states.find? ((sound.load []).run k).2.state = some table
            ∧ table.isEmpty = false)
      ∧ orphan.machine.diagnose = some (.unreachableStates ["r"])
      ∧ ∀ k, ((orphan.load []).run k).2.state ≠ "r" := by
  intro rule sound orphan
  have hsound : sound.machine.diagnose = none := by decide +kernel
  have horphan : orphan.machine.diagnose = some (.unreachableStates ["r"]) := by decide +kernel
  refine ⟨⟨hsound, fun k hrunning => ?_⟩, horphan, fun k => ?_⟩
  . obtain ⟨table, hfind, hempty, _⟩ := (diagnosis_sound_for_runs sound [] k).2.2 hsound hrunning
    exact ⟨table, hfind, hempty⟩
  . exact (diagnosis_sound_for_runs orphan [] k).2.1 ["r"] horphan "r" (List.mem_singleton.mpr rfl) (by decide)

end TuringLowering
