import TuringLowering.Proofs.Indexing
import TuringLowering.Proofs.Operation
import TuringLowering.Proofs.Runs

/-!
This module contains that empty cells at the end of a tape cannot be told from cells that are not
there: a machine takes tapes that look alike to tapes that look alike, step by step.
-/

namespace TuringLowering

theorem Snapshot.view_of_alike {ss ss' : List Snapshot} (h : List.Forall₂ Alike ss ss') :
    ss.map view = ss'.map view := by
  rw [← List.forall₂_eq_eq_eq, List.forall₂_map_left_iff, List.forall₂_map_right_iff]
  exact h.imp fun s s' halike => View.ext halike.1 halike.2

theorem Tape.view_of_alike {ts ts' : List Tape}
    (h : List.Forall₂ Snapshot.Alike (ts.map snapshot) (ts'.map snapshot)) :
    ts.map view = ts'.map view := by
  rw [← map_view_snapshot, ← map_view_snapshot]
  exact Snapshot.view_of_alike h

theorem Session.key_congr {ts ts' : List Tape} (h : ts.map Tape.view = ts'.map Tape.view) :
    key ts = key ts' := by
  have hfocus : ts.map Tape.focus = ts'.map Tape.focus := by
    rw [← Tape.map_focus_view, h, Tape.map_focus_view]
  -- One tape is read as it is, any other number of them as a combination.
  rcases ts with _ | ⟨t, _ | ⟨u, ts⟩⟩ <;> rcases ts' with _ | ⟨t', _ | ⟨u', ts'⟩⟩ <;>
    simp_all [key]

theorem Outcome.view_apply_congr (o : Outcome) {ts ts' : List Tape}
    (h : ts.map Tape.view = ts'.map Tape.view) :
    (o.apply ts).map Tape.view = (o.apply ts').map Tape.view := by
  unfold apply
  generalize o.actions = as
  induction as generalizing ts ts' with
  | nil => exact h
  | cons a as ih =>
    cases ts with
    | nil =>
      obtain rfl := List.map_eq_nil_iff.mp h.symm
      rfl
    | cons t ts =>
      cases ts' with
      | nil => cases h
      | cons t' ts' =>
        rw [List.map_cons, List.map_cons, List.cons.injEq] at h
        simp only [applyAll, List.map_cons, a.view_apply_congr h.1, ih h.2]

def Config.seen (c : Config) : String × List View := (c.state, c.tapes.map Tape.view)

namespace Machine

variable (m : Machine) {c c' : Config}

theorem seen_next (h : c.seen = c'.seen) : (m.next c).seen = (m.next c').seen := by
  obtain ⟨hstate, hviews⟩ := Prod.mk.inj h
  unfold next
  rw [hstate]
  split
  . exact h
  . rw [Session.key_congr hviews]
    exact Prod.ext rfl (Outcome.view_apply_congr _ hviews)

theorem seen_iterate_next (h : c.seen = c'.seen) (n : Nat) :
    (m.next^[n] c).seen = (m.next^[n] c').seen := by
  induction n with
  | zero => exact h
  | succ n ih => rw [Function.iterate_succ_apply', Function.iterate_succ_apply', m.seen_next ih]

end Machine

variable {ω : Type} [Observer ω]

/--
Whatever is done to a tape that is kept as cells and an index has a result: the tape is never read or
written out of bounds. If two lists of tapes differ in empty cells at their ends at most, then so they do
after any number of steps of a machine that begins in the same state, and the state it gets to is the same.
-/
theorem padding_unobservable :
    (∀ (input : Option (List Cell)) (edits : List Tape.Edit),
      let t := edits.foldl Tape.edit (.opened input)
      edits.foldlM Snapshot.edit (.opened input) = .some t.snapshot
        ∧ t.snapshot.head < t.snapshot.cells.length
        ∧ t.snapshot.read = .some t.focus
        ∧ ∀ c, t.snapshot.write c = .some (t.write c).snapshot)
      ∧ ∀ (s : Session ω) (tapes : List Tape),
        List.Forall₂ Snapshot.Alike (s.tapes.map Tape.snapshot) (tapes.map Tape.snapshot) →
        ∀ n,
          let t := s.forward n
          let t' := { s with tapes }.forward n
          t.state = t'.state
            ∧ List.Forall₂ Snapshot.Alike (t.tapes.map Tape.snapshot) (t'.tapes.map Tape.snapshot)
            ∧ t.tapes.map (·.snapshot.text) = t'.tapes.map (·.snapshot.text) := by
  refine ⟨fun input edits => ?_, fun s tapes h n => ?_⟩
  . intro t
    refine ⟨?_, t.position_lt_length_cells, t.read_snapshot, t.write_snapshot⟩
    rw [← Tape.snapshot_opened, Tape.edits_snapshot]
  . intro t t'
    have hbegin : s.config.seen = ({ s with tapes } : Session ω).config.seen :=
      Prod.ext rfl (Tape.view_of_alike h)
    have hseen : t.config.seen = t'.config.seen := by
      rw [Session.config_forward, Session.config_forward]
      exact s.machine.seen_iterate_next hbegin n
    obtain ⟨hstate, hviews⟩ := Prod.mk.inj hseen
    have halike := Tape.alike_of_view hviews
    refine ⟨hstate, halike, ?_⟩
    have := Snapshot.map_text_of_alike halike
    rwa [List.map_map, List.map_map] at this

/-- A tape that ends under its head and one that goes on get a marker, and differ in their lengths still. -/
theorem padding_unobservable_marked :
    let a := Cell.literal "a"
    let marker := Cell.literal "#"
    let m := ((Draft.new "q").receive [.alphabets [a] [marker], .features [.gadgetFirstCellMarker],
      .directive (.gadget "q" (.cell a) (.markFirst marker) "r")]).compile
    let s : Session Unit := { Session.new m () with tapes := [⟨[], a, []⟩] }
    let s' : Session Unit := { s with tapes := [⟨[], a, [.blank, .blank, .blank]⟩] }
    List.Forall₂ Snapshot.Alike (s.tapes.map Tape.snapshot) (s'.tapes.map Tape.snapshot)
      ∧ (s.forward 1).tapes ≠ (s'.forward 1).tapes
      ∧ (s'.forward 1).state = "r"
      ∧ (s'.forward 1).tapes.map (·.snapshot.text) = ["#a"] := by
  intro a marker m s s'
  have halike : List.Forall₂ Snapshot.Alike (s.tapes.map Tape.snapshot) (s'.tapes.map Tape.snapshot) := by
    refine .cons ⟨rfl, fun i => ?_⟩ .nil
    rcases i with _ | _ | _ | _ | i <;> rfl
  obtain ⟨hstate, _, htext⟩ := padding_unobservable.2 s s'.tapes halike 1
  refine ⟨halike, by decide +kernel, hstate.symm.trans ?_, htext.symm.trans ?_⟩
  . decide +kernel
  . decide +kernel

end TuringLowering
