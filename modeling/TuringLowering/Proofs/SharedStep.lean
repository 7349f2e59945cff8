import TuringLowering.Proofs.MultiTape

/-!
This module contains what one step of a machine does to a tape that several tapes share, from the name of
the current state to the check of the segments.
-/

namespace TuringLowering

namespace Snapshot

/-- The cell under the head. -/
def focus (s : Snapshot) : Cell := s.cells.getD s.head .blank

theorem exists_tape {s : Snapshot} (h : s.head < s.cells.length) : ∃ t : Tape, t.snapshot = s := by
  refine ⟨⟨(s.cells.take s.head).reverse, s.cells[s.head], s.cells.drop (s.head + 1)⟩, ?_⟩
  obtain ⟨cells, head⟩ := s
  simp [Tape.snapshot, Tape.cells, Tape.position, Nat.min_eq_left (Nat.le_of_lt h)]

theorem exists_tapes {tapes : List Snapshot} (h : ∀ s ∈ tapes, s.head < s.cells.length) :
    ∃ ts : List Tape, ts.map Tape.snapshot = tapes := by
  induction tapes with
  | nil => exact ⟨[], rfl⟩
  | cons s tapes ih =>
    rw [List.forall_mem_cons] at h
    obtain ⟨t, rfl⟩ := exists_tape h.1
    obtain ⟨ts, rfl⟩ := ih h.2
    exact ⟨t :: ts, rfl⟩

end Snapshot

theorem Tape.focus_snapshot (t : Tape) : t.snapshot.focus = t.focus := t.focus_view

namespace JointTransition

/-- The tapes after what a transition does on each of them. -/
def actAll (t : JointTransition) (tapes : List Snapshot) : List Snapshot :=
  List.zipWith (fun (p : Writing × Move) s => s.act (p.1.onto s.focus) p.2) (t.writes.zip t.moves) tapes

theorem segments_routeOn (g : Guard) (t : JointTransition) (ts : List Tape) :
    (t.routeOn g (ts.map Tape.focus)).segments ts = (t.actAll (ts.map Tape.snapshot)).map Segment.encode := by
  obtain ⟨origin, read, writes, moves, next⟩ := t
  simp only [Route.segments, Route.onEach, routeOn, actAll]
  induction ts generalizing writes moves with
  | nil => simp
  | cons tape ts ih =>
    cases writes with
    | nil => rfl
    | cons w writes =>
      cases moves with
      | nil => rfl
      | cons m moves =>
        have hrest := ih writes moves
        simp only [Writing.ontoAll] at hrest
        simp only [List.map_cons, Writing.ontoAll, List.zipWith_cons_cons, List.zip_cons_cons, hrest,
          Tape.focus_snapshot]

theorem unrollAll_of_short (g : Guard) {ts : List JointTransition}
    (h : ∀ t ∈ ts, ∀ m ∈ t.moves, m.isLong = false) : (unrollAll g ts).2 = ts := by
  induction ts using List.reverseRecOn with
  | nil => rfl
  | append_singleton ts t ih =>
    rw [List.forall_mem_append, List.forall_mem_singleton] at h
    have hshort : t.moves.any Move.isLong = false := by simpa using h.2
    have hlast (n : Nat) (made : List ChainKey) : (unroll g n made t).2 = [t] := by
      cases n with
      | zero => rfl
      | succ n => rw [unroll, hshort, if_neg Bool.false_ne_true]
    rw [unrollAll_concat]
    dsimp only
    rw [hlast, ih h.1]

end JointTransition

namespace Segment

/-- A tape that several tapes share, with the name of the current state. -/
def line (q : String) (tapes : List Snapshot) : List Cell :=
  .start :: .state q :: tapes.flatMap encode ++ [.afterLast]

theorem view_of_line {q : String} {ts : List Tape} {t : Tape} {blanks : Nat}
    (h : t.snapshot = ⟨line q (ts.map Tape.snapshot) ++ List.replicate blanks .blank, 1⟩) :
    t.view = shared q ts := by
  have hsegments : (ts.map Tape.snapshot).flatMap encode = ts.flatMap Tape.segment := by
    rw [List.flatMap_map]
    exact List.flatMap_congr fun t _ => encode_snapshot t
  obtain ⟨hcells, hposition⟩ := Snapshot.mk.inj h
  have hview : t.view = .of [.start] ((.state q :: ts.flatMap Tape.segment ++ [.afterLast])
      ++ List.replicate blanks .blank) := by
    ext i
    . exact hposition
    . change t.cells.getD i .blank = _
      rw [hcells, line, hsegments]
      rfl
  rw [hview, View.of_append_blanks]
  rfl

theorem snapshot_of_view {q : String} {tapes : List Snapshot} {t : Tape}
    (h : t.view = .of [.start, .state q] (tapes.flatMap encode ++ [.afterLast])) :
    ∃ blanks, t.snapshot = ⟨line q tapes ++ List.replicate blanks .blank, 2⟩ := by
  obtain ⟨blanks, hcells⟩ := Tape.cells_eq_of_view h (by decide)
  have hposition : t.position = 2 := congrArg View.position h
  refine ⟨blanks, ?_⟩
  rw [Tape.snapshot, hcells, hposition]
  rfl

end Segment

open JointTransition Segment

/--
One step of a machine whose tapes share one, from the name of its state on. The first transition about the
state and the cells under the heads is followed on each tape, and its next state takes the place of the
state, before the segments are checked. Where there is no such transition, the machine rejects.
-/
theorem shared_tape_steps {ω : Type} [Observer ω] {input extra : List Char} {features : List Feature}
    {n : Nat} {first : String} {ts : List JointTransition} {d : Draft}
    (hinput : ∀ c ∈ input ++ extra, c ≠ Guard.mark)
    (hts : ∀ t ∈ ts, t.Over (· ∈ (Alphabet.ofChars input extra).declared)
      ∧ ∀ m ∈ t.moves, m.isLong = false)
    (hd : Build.submitAll (Request.onTapes input extra features n first ts) (.new Draft.defaultStart)
      = .ok () d)
    (hshared : d.features.enabled .multiTape = false) {s : Session ω} (hmachine : s.machine = d.compile)
    {q : String} {tapes : List Snapshot} (hlength : tapes.length = n)
    (htapes : ∀ t ∈ tapes, t.head < t.cells.length
      ∧ ∀ c ∈ t.cells, c ∈ (Alphabet.ofChars input extra).declared)
    {blanks : Nat} (hstate : s.state = stepState d.guard)
    (htape : s.tapes.map Tape.snapshot = [⟨line q tapes ++ List.replicate blanks .blank, 1⟩]) :
    match serving ts q (tapes.map Snapshot.focus) with
    | some t => ∃ k blanks, (s.run k).2.state = growState d.guard
      ∧ (s.run k).2.tapes.map Tape.snapshot
        = [⟨line t.next (t.actAll tapes) ++ List.replicate blanks .blank, 2⟩]
    | none => ∃ k, (s.run k).2.state = Verdict.reject.state := by
  have hn := Nat.zero_lt_of_lt (@Build.onTapes_eq_ok _ _ _ _ _ _ _ .single hd).1
  obtain ⟨hnot, _⟩ | ⟨_, hmirrors⟩ := Draft.owns_or_mirrors hinput (fun t ht => (hts t ht).1) hd
  . rw [hshared] at hnot
    cases hnot
  have hA := Alphabet.isSegmented_shared first (Alphabet.isLettered_ofChars input extra)
    (Alphabet.simulating_ofChars input extra) (Build.clean_ofChars hinput)
  obtain ⟨tapes, rfl⟩ := Snapshot.exists_tapes fun t ht => (htapes t ht).1
  rw [List.length_map] at hlength
  have hwithin : ∀ t ∈ tapes, t.view.Within ((Alphabet.ofChars input extra).shared first).declared := by
    intro t ht i
    have hcells := (htapes t.snapshot (List.mem_map_of_mem ht)).2
    rw [Alphabet.declared_shared, Tape.cells_view, Tape.cellAt, List.getD_eq_getElem?_getD]
    cases hget : t.cells[i]? with
    | none => exact (Alphabet.isLettered_ofChars input extra).blank
    | some c => exact hcells c (List.mem_of_getElem? hget)
  obtain ⟨tape, htape, hsnapshot⟩ := List.map_eq_singleton_iff.mp htape
  have hview := view_of_line hsnapshot
  have hconfig : s.config = ⟨stepState d.guard, [tape]⟩ := by rw [Session.config, hstate, htape]
  have hrun (k : Nat) : (s.run k).2.config = d.compile.next^[k] ⟨stepState d.guard, [tape]⟩ := by
    rw [(Session.run_eq k s).1, hmachine, hconfig]
  have hfoci : (tapes.map Tape.snapshot).map Snapshot.focus = tapes.map Tape.focus := by
    rw [List.map_map]
    exact List.map_congr_left fun t _ => t.focus_snapshot
  rw [unrollAll_of_short d.guard fun t ht => (hts t ht).2] at hmirrors
  rw [hfoci]
  split
  . next t hserving =>
    have hreaches := hmirrors.step_of_serving hA hlength hwithin hn hserving
    obtain ⟨k, t', _, hiterate, ht'⟩ := hreaches.iterate hview
    rw [segments_routeOn, ← List.flatMap_def] at ht'
    obtain ⟨blanks, hblanks⟩ := snapshot_of_view ht'
    have hconfig : (s.run k).2.config = ⟨growState d.guard, [t']⟩ := by rw [hrun, hiterate]
    obtain ⟨hstate, htapes⟩ := Config.mk.inj hconfig
    exact ⟨k, blanks, hstate, by rw [htapes, List.map_singleton, hblanks]⟩
  . next hserving =>
    obtain ⟨k, t', _, hiterate, _⟩ := hmirrors.step_of_unserved hA hlength hwithin hserving hview
    have hconfig : (s.run k).2.config = ⟨Verdict.reject.state, [t']⟩ := by rw [hrun, hiterate]
    exact ⟨k, (Config.mk.inj hconfig).1⟩

/-- One head leaves its tape to the right, the other one cannot leave it to the left. -/
theorem shared_tape_steps_off_the_ends :
    let a := Cell.ofChar 'a'
    let ts := [⟨"q", .tapes [.cell a, .any], [.keep, .put a], [.right, .left], "r"⟩]
    let build := Build.submitAll (Request.onTapes ['a'] [] (Feature.all.erase .multiTape) 2 "q" ts)
    let d := build.after (.new Draft.defaultStart)
    let session (tapes : List Snapshot) :=
      (Session.new d.compile ()).restore ⟨stepState d.guard, [⟨line "q" tapes, 1⟩]⟩
    (∃ k blanks, ((session [⟨[a], 0⟩, ⟨[.blank, a], 0⟩]).run k).2.state = growState d.guard
        ∧ ((session [⟨[a], 0⟩, ⟨[.blank, a], 0⟩]).run k).2.tapes.map Tape.snapshot
          = [⟨[.start, .state "r", .boundLeft, a, Cell.boundRight.tagged, .boundLeft, a.tagged, a,
            .boundRight, .afterLast] ++ List.replicate blanks .blank, 2⟩])
      ∧ ∃ k, ((session [⟨[.blank], 0⟩, ⟨[a], 0⟩]).run k).2.state = Verdict.reject.state := by
  intro a ts build d session
  have hbuild : build.succeeds (.new Draft.defaultStart) = true
      ∧ d.features.enabled .multiTape = false := by decide +kernel
  have hd := Build.eq_ok_of_succeeds hbuild.1
  have hts : ∀ t ∈ ts, t.Over (· ∈ (Alphabet.ofChars ['a'] []).declared)
      ∧ ∀ m ∈ t.moves, m.isLong = false := by decide +kernel
  constructor
  . exact @shared_tape_steps _ _ _ _ _ _ _ _ _ (forall_mem_of_all (by decide)) hts hd hbuild.2
      (session [⟨[a], 0⟩, ⟨[.blank, a], 0⟩]) rfl "q" [⟨[a], 0⟩, ⟨[.blank, a], 0⟩] rfl (by decide +kernel) 0
      rfl (by decide +kernel)
  . exact @shared_tape_steps _ _ _ _ _ _ _ _ _ (forall_mem_of_all (by decide)) hts hd hbuild.2
      (session [⟨[.blank], 0⟩, ⟨[a], 0⟩]) rfl "q" [⟨[.blank], 0⟩, ⟨[a], 0⟩] rfl (by decide +kernel) 0 rfl
      (by decide +kernel)

/--
A symbol with a head on it is not the symbol alone, but both are found as the same cell. A transition about
the one hides those about the other, which are never followed.
-/
theorem shared_tape_hides_tagged :
    let a := Cell.ofChar 'a'
    let onHead : JointTransition :=
      ⟨"q", .tapes [.cell a.tagged, .cell a], [.keep, .keep], [.stay, .stay], Verdict.reject.state⟩
    let onCell : JointTransition :=
      ⟨"q", .tapes [.cell a, .cell .blank], [.keep, .keep], [.stay, .stay], Verdict.accept.state⟩
    let build (ts : List JointTransition) :=
      Build.submitAll (Request.onTapes ['a'] [] (Feature.all.erase .multiTape) 2 "q" ts)
    let halts (ts : List JointTransition) :=
      ((build ts).after (.new Draft.defaultStart)).compile.Halts [a]
    serving [onHead, onCell] "q" [a, .blank] = some onCell
      ∧ (build [onHead, onCell]).succeeds (.new Draft.defaultStart) = true
      ∧ halts [onCell] .accept ∧ halts [onHead, onCell] .reject := by
  intro a onHead onCell build halts
  have hruns : (build [onHead, onCell]).succeeds (.new Draft.defaultStart) = true
      ∧ (((build [onCell]).after (.new Draft.defaultStart)).compile.ran [a] 100).1 = .halted .accept
      ∧ (((build [onHead, onCell]).after (.new Draft.defaultStart)).compile.ran [a] 100).1
        = .halted .reject := by
    decide +kernel
  exact ⟨by decide, hruns.1, ⟨100, hruns.2.1⟩, ⟨100, hruns.2.2⟩⟩

end TuringLowering
