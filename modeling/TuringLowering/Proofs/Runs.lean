import Mathlib.Data.List.DropRight
import Mathlib.Data.List.Forall2
import Mathlib.Data.List.GetD
import TuringLowering.Proofs.Execution
import TuringLowering.Tape.Snapshot

/-!
This module contains the runs of a machine on an input, and what they leave on its tapes.
-/

namespace TuringLowering

namespace Machine

variable {m : Machine} {word : List Cell}

/-- The run of a machine on an input, for at most `k` steps. -/
def ran (m : Machine) (word : List Cell) (k : Nat) : Progress × Session Unit :=
  ((Session.new m ()).load word).run k

/-- The machine halts on an input with a verdict. -/
def Halts (m : Machine) (word : List Cell) (v : Verdict) : Prop := ∃ k, (m.ran word k).1 = .halted v

/-- Each of the first `k` steps on an input is made by a rule. -/
def FollowsRules (m : Machine) (word : List Cell) (k : Nat) : Prop :=
  ∀ j < k, (m.ran word j).2.progress = .running
    ∧ (m.rule? (m.ran word j).2.state (Session.key (m.ran word j).2.tapes)).isSome = true

instance (m : Machine) (word : List Cell) (k : Nat) : Decidable (m.FollowsRules word k) :=
  inferInstanceAs (Decidable (∀ j < k, _ ∧ _))

/-- The configuration in which a machine starts on an input. -/
def initial (m : Machine) (word : List Cell) : Config :=
  ⟨m.start, Session.inputTapes m.physicalTapes word⟩

theorem config_ran (m : Machine) (word : List Cell) (k : Nat) :
    (m.ran word k).2.config = m.next^[k] (m.initial word) :=
  (Session.run_eq k ((Session.new m ()).load word)).1

theorem machine_ran (m : Machine) (word : List Cell) (k : Nat) : (m.ran word k).2.machine = m := by
  rw [ran, Session.snd_run, Session.machine_forward]
  rfl

theorem halts_iff {v : Verdict} :
    m.Halts word v ↔ ∃ k, (m.next^[k] (m.initial word)).state = v.state := by
  constructor
  . rintro ⟨k, hk⟩
    exact ⟨k, Session.state_of_run hk⟩
  . rintro ⟨k, hk⟩
    have hconfig : m.next^[k] (m.initial word) = ⟨v.state, (m.next^[k] (m.initial word)).tapes⟩ := by
      rw [← hk]
    obtain ⟨n, s, hrun, _⟩ := (@Session.exists_run_halted_iff _ _ ((Session.new m ()).load word) v _).mpr
      ⟨k, hconfig⟩
    exact ⟨n, congrArg Prod.fst hrun⟩

theorem halts_iff_later (m : Machine) (c : Config) (k : Nat) (v : Verdict) :
    (∃ j, (m.next^[j] (m.next^[k] c)).state = v.state) ↔ ∃ j, (m.next^[j] c).state = v.state := by
  constructor
  . rintro ⟨j, hj⟩
    exact ⟨j + k, by rwa [Function.iterate_add_apply]⟩
  . rintro ⟨j, hj⟩
    refine ⟨j, ?_⟩
    rw [← Function.iterate_add_apply, Nat.add_comm, Function.iterate_add_apply,
      m.iterate_next_of_terminal (by rw [hj, isTerminal_state]), hj]

theorem followsRules_succ {k : Nat} (h : m.FollowsRules word (k + 1)) :
    m.FollowsRules word k ∧ isTerminal (m.next^[k] (m.initial word)).state = false
      ∧ (m.rule? (m.next^[k] (m.initial word)).state
        (Session.key (m.next^[k] (m.initial word)).tapes)).isSome = true := by
  obtain ⟨hprogress, hrule⟩ := h k (Nat.lt_succ_self k)
  refine ⟨fun j hj => h j (Nat.lt_succ_of_lt hj), ?_⟩
  rw [← config_ran]
  exact ⟨Session.progress_eq_running_iff.mp hprogress, hrule⟩

theorem followsRules_succ_of_rule {k : Nat} (h : m.FollowsRules word k)
    (hrunning : (m.ran word k).2.progress = .running)
    (hrule : (m.rule? (m.ran word k).2.state (Session.key (m.ran word k).2.tapes)).isSome = true) :
    m.FollowsRules word (k + 1) := by
  intro j hj
  rcases Nat.lt_succ_iff_lt_or_eq.mp hj with hj | rfl
  . exact h j hj
  . exact ⟨hrunning, hrule⟩

end Machine

/-- Two records of a tape that differ in empty cells at the end at most. -/
def Snapshot.Alike (s s' : Snapshot) : Prop :=
  s.head = s'.head ∧ ∀ i, s.cells.getD i .blank = s'.cells.getD i .blank

namespace Snapshot

/-- All cells of a tape but the one under its head are the same in a later record. -/
def Spares (s s' : Snapshot) : Prop :=
  ∀ i, i ≠ s.head → s'.cells.getD i .blank = s.cells.getD i .blank

theorem spares_self (s : Snapshot) : s.Spares s := fun _ _ => rfl

theorem spares_of_alike {tapes tapes' left : List Snapshot} (h : List.Forall₂ Alike tapes tapes')
    (hspares : List.Forall₂ Spares tapes left) : List.Forall₂ Spares tapes' left := by
  induction h generalizing left with
  | nil => exact hspares
  | cons halike _ ih =>
    cases hspares with
    | cons hspare hspares =>
      refine .cons (fun i hi => ?_) (ih hspares)
      rw [← halike.2 i]
      exact hspare i (halike.1 ▸ hi)

theorem spares_selves (tapes : List Snapshot) : List.Forall₂ Spares tapes tapes :=
  List.forall₂_same.mpr fun s _ => s.spares_self

def view (s : Snapshot) : View := ⟨s.head, fun i => s.cells.getD i .blank⟩

theorem alike_of_view {ss ss' : List Snapshot} (h : ss.map view = ss'.map view) :
    List.Forall₂ Alike ss ss' := by
  rw [← List.forall₂_eq_eq_eq, List.forall₂_map_left_iff, List.forall₂_map_right_iff] at h
  exact h.imp fun s s' hview =>
    ⟨congrArg View.position hview, congrFun (congrArg View.cells hview)⟩

theorem getD_trimmed (s : Snapshot) (i : Nat) :
    s.trimmed.getD i .blank = s.cells.getD i .blank := by
  change (s.cells.rdropWhile (· == .blank)).getD i .blank = _
  generalize s.cells = cells
  induction cells using List.reverseRecOn with
  | nil => rfl
  | append_singleton cells c ih =>
    rw [List.rdropWhile_concat]
    split
    . next hc =>
      rw [beq_iff_eq.mp hc, Tape.getD_append_blank]
      exact ih
    . rfl

theorem length_le_of_getD {cells cells' : List Cell}
    (h : ∀ i, cells.getD i .blank = cells'.getD i .blank)
    (hlast : ∀ hne : cells ≠ [], cells.getLast hne ≠ .blank) : cells.length ≤ cells'.length := by
  rcases Nat.lt_or_ge cells'.length cells.length with hlt | hge
  . have hne : cells ≠ [] := List.ne_nil_of_length_pos (Nat.zero_lt_of_lt hlt)
    have hlt' : cells.length - 1 < cells.length := by omega
    have hcell := h (cells.length - 1)
    rw [List.getD_eq_getElem _ _ hlt', List.getD_eq_default _ _ (by omega)] at hcell
    exact absurd ((List.getLast_eq_getElem hne).trans hcell) (hlast hne)
  . exact hge

namespace Alike

variable {s s' : Snapshot} (h : s.Alike s')

include h

theorem trimmed_eq : s.trimmed = s'.trimmed := by
  have hcells (i : Nat) : s.trimmed.getD i .blank = s'.trimmed.getD i .blank := by
    rw [getD_trimmed, getD_trimmed, h.2 i]
  have hlast (s : Snapshot) (hne : s.trimmed ≠ []) : s.trimmed.getLast hne ≠ .blank := by
    intro heq
    apply List.rdropWhile_last_not (· == Cell.blank) s.cells hne
    exact beq_iff_eq.mpr heq
  apply List.ext_getElem
  . exact Nat.le_antisymm (length_le_of_getD hcells (hlast s))
      (length_le_of_getD (fun i => (hcells i).symm) (hlast s'))
  . intro i hi hi'
    have hcell := hcells i
    rwa [List.getD_eq_getElem _ _ hi, List.getD_eq_getElem _ _ hi'] at hcell

theorem text_eq : s.text = s'.text := by
  unfold text
  rw [h.trimmed_eq]

end Alike

theorem map_text_of_alike {ss ss' : List Snapshot} (h : List.Forall₂ Alike ss ss') :
    ss.map text = ss'.map text := by
  rw [← List.forall₂_eq_eq_eq, List.forall₂_map_left_iff, List.forall₂_map_right_iff]
  exact h.imp fun _ _ halike => halike.text_eq

end Snapshot

theorem Tape.map_view_snapshot (ts : List Tape) : (ts.map snapshot).map Snapshot.view = ts.map view :=
  List.map_map

theorem Tape.alike_of_view {ts ts' : List Tape} (h : ts.map view = ts'.map view) :
    List.Forall₂ Snapshot.Alike (ts.map snapshot) (ts'.map snapshot) := by
  apply Snapshot.alike_of_view
  rwa [map_view_snapshot, map_view_snapshot]

theorem Tape.spares_of_erased {t t' : Tape} (h : t'.view.cells = (t.view.write .blank).cells)
    (p : Nat) : t.snapshot.Spares ⟨t'.cells, p⟩ := by
  intro i hi
  have hi : i ≠ t.view.position := hi
  have hcell := congrFun h i
  rwa [View.cells_write, if_neg hi] at hcell

namespace Machine

theorem spares_of_fallback {m : Machine} {c : Config} (hrunning : isTerminal c.state = false)
    (hrule : m.rule? c.state (Session.key c.tapes) = none) :
    (m.next c).state = Verdict.reject.state
      ∧ List.Forall₂ Snapshot.Spares (c.tapes.map Tape.snapshot) ((m.next c).tapes.map Tape.snapshot) := by
  have hnext : m.next c = ⟨Verdict.reject.state, m.fallback.apply c.tapes⟩ := by
    rw [next, if_neg (by rw [hrunning]; exact Bool.false_ne_true), lookup, hrule]
    rfl
  rw [hnext]
  refine ⟨rfl, ?_⟩
  rw [Outcome.apply, fallback]
  dsimp only
  generalize m.physicalTapes = n
  generalize c.tapes = ts
  induction ts generalizing n with
  | nil => cases n <;> exact .nil
  | cons t ts ih =>
    cases n with
    | zero => exact Snapshot.spares_selves _
    | succ n =>
      refine .cons (Tape.spares_of_erased ?_ _) (ih n)
      rw [Action.view_write, View.cells_move]

theorem followsRules_of_running {m : Machine} {word : List Cell} {k : Nat}
    (h : (m.ran word k).2.progress = .running) : m.FollowsRules word k := by
  have hrunning {j : Nat} (hj : j ≤ k) : isTerminal (m.ran word j).2.config.state = false := by
    rw [Session.progress_eq_running_iff] at h
    rw [Bool.eq_false_iff]
    intro hterminal
    have hlater : (m.ran word k).2.config = (m.ran word j).2.config := by
      rw [config_ran] at hterminal
      rw [config_ran, config_ran, ← Nat.sub_add_cancel hj, Function.iterate_add_apply,
        m.iterate_next_of_terminal hterminal]
    have hstate : (m.ran word k).2.state = (m.ran word j).2.config.state :=
      congrArg Config.state hlater
    rw [hstate, hterminal] at h
    cases h
  intro j hj
  have hj' := hrunning (Nat.le_of_lt hj)
  refine ⟨Session.progress_eq_running_iff.mpr hj', ?_⟩
  by_contra hrule
  have hnone : m.rule? (m.ran word j).2.config.state (Session.key (m.ran word j).2.config.tapes)
      = none := Option.not_isSome_iff_eq_none.mp hrule
  have hreject := (spares_of_fallback hj' hnone).1
  have hnext := hrunning hj
  rw [config_ran] at hreject
  rw [config_ran, Function.iterate_succ_apply', hreject, isTerminal_state] at hnext
  cases hnext

/-- The machine halts on an input, and its tapes are as given, up to empty cells at the end. -/
def Leaves (m : Machine) (word : List Cell) (v : Verdict) (tapes : List Snapshot) : Prop :=
  ∃ k, (m.ran word k).1 = .halted v
    ∧ List.Forall₂ Snapshot.Alike (m.ran word k).2.logicalTapes tapes
    ∧ (m.ran word k).2.logicalTapes.map Snapshot.text = tapes.map Snapshot.text

theorem leaves_of_alike {m : Machine} {word : List Cell} {v : Verdict} {tapes : List Snapshot}
    {k : Nat} (hv : (m.ran word k).1 = .halted v)
    (h : List.Forall₂ Snapshot.Alike (m.ran word k).2.logicalTapes tapes) :
    m.Leaves word v tapes := ⟨k, hv, h, Snapshot.map_text_of_alike h⟩

theorem ran_of_iterate {m : Machine} {word : List Cell} {k : Nat} {v : Verdict} {tapes : List Tape}
    (h : m.next^[k] (m.initial word) = ⟨v.state, tapes⟩) :
    ∃ n, (m.ran word n).1 = .halted v ∧ (m.ran word n).2.tapes = tapes := by
  obtain ⟨n, s, hrun, htapes⟩ :=
    (@Session.exists_run_halted_iff _ _ ((Session.new m ()).load word) v tapes).mpr ⟨k, h⟩
  have hran : m.ran word n = (.halted v, s) := hrun
  exact ⟨n, by rw [hran], by rw [hran, htapes]⟩

end Machine

end TuringLowering
