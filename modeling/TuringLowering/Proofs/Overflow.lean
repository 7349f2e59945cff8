import TuringLowering.Proofs.Origins
import TuringLowering.Proofs.SharedStep

/-!
This module contains the proof that the pass which checks the segments gives a cell to exactly those whose
head has left them, and ends: in the state in which a step begins, or in the one in which the machine stops.
-/

namespace TuringLowering

theorem Tape.view_of_cells {t : Tape} {l r : List Cell} (hposition : t.position = l.length)
    (hcells : t.cells = l ++ r) : t.view = .of l r := by
  apply View.ext
  . rw [position_view, hposition, View.position_of]
  . intro i
    rw [cells_view, cellAt, hcells, View.cells_of]

theorem Tape.within_of_cells {t : Tape} {B : List Cell} (h : ∀ c ∈ t.cells, c ∈ B) (hblank : .blank ∈ B) :
    t.view.Within B := by
  intro i
  rw [cells_view, cellAt]
  rcases Nat.lt_or_ge i t.cells.length with hlt | hge
  . rw [List.getD_eq_getElem _ _ hlt]
    exact h _ (List.getElem_mem hlt)
  . rwa [List.getD_eq_default _ _ hge]

namespace Segment

/-- Segments in which each tagged boundary has given way to a tagged empty cell before it. -/
def regrown (cells : List Cell) : List Cell :=
  cells.flatMap fun c => if c = Cell.boundRight.tagged then [Cell.blank.tagged, .boundRight] else [c]

theorem regrown_of_ne {cells : List Cell} (h : ∀ c ∈ cells, c ≠ Cell.boundRight.tagged) :
    regrown cells = cells := by
  induction cells with
  | nil => rfl
  | cons c cells ih =>
    rw [List.forall_mem_cons] at h
    rw [regrown, List.flatMap_cons, if_neg h.1]
    exact congrArg (c :: ·) (ih h.2)

theorem regrown_append (l r : List Cell) : regrown (l ++ r) = regrown l ++ regrown r :=
  List.flatMap_append

theorem ne_boundary_of_isLetter {c : Cell} (h : c.IsLetter) :
    c ≠ Cell.boundRight.tagged ∧ c.tagged ≠ Cell.boundRight.tagged := by
  rcases h with ⟨char, rfl⟩ | rfl
  . exact ⟨nofun, nofun⟩
  . exact ⟨nofun, nofun⟩

theorem regrown_segment {t : Tape} (h : ∀ c ∈ t.cells, c.IsLetter) : regrown t.segment = t.segment := by
  apply regrown_of_ne
  intro c hc
  simp only [Tape.segment, Tape.lead, Tape.trail, List.mem_append, List.mem_cons, List.mem_reverse,
    List.not_mem_nil, or_false] at hc
  have hmem {c : Cell} (hc : c ∈ t.before ∨ c = t.focus ∨ c ∈ t.after) : c.IsLetter :=
    h c (by simpa [Tape.cells] using hc)
  rcases hc with (rfl | hc) | rfl | hc | rfl
  . decide
  . exact (ne_boundary_of_isLetter (hmem (.inl hc))).1
  . exact (ne_boundary_of_isLetter (hmem (.inr (.inl rfl)))).2
  . exact (ne_boundary_of_isLetter (hmem (.inr (.inr hc)))).1
  . decide

theorem exists_shows {A : Alphabet} (hA : A.HasHeads) {x : Snapshot}
    (hcells : ∀ c ∈ x.cells, c ∈ A.declared) (hhead : x.head ≤ x.cells.length) :
    ∃ t : Tape, t.view.Within A.declared ∧ Shows t (encode x) ∧ t.segment = regrown (encode x) := by
  rcases Nat.lt_or_eq_of_le hhead with hlt | heq
  . obtain ⟨t, rfl⟩ := Snapshot.exists_tape hlt
    refine ⟨t, Tape.within_of_cells hcells hA.blank, ?_, ?_⟩
    . rw [encode_snapshot]
      exact .settled
    . rw [encode_snapshot, regrown_segment fun c hc => hA.letters c (hcells c hc)]
  . obtain ⟨cells, head⟩ := x
    obtain rfl : head = cells.length := heq
    have hne : ∀ c ∈ Cell.boundLeft :: cells, c ≠ Cell.boundRight.tagged := by
      rw [List.forall_mem_cons]
      exact ⟨nofun, fun c hc => (ne_boundary_of_isLetter (hA.letters c (hcells c hc))).1⟩
    refine ⟨⟨cells.reverse, .blank, []⟩, Tape.within_of_cells ?_ hA.blank, ?_, ?_⟩
    . intro c hc
      simp only [Tape.cells, List.reverse_reverse, List.mem_append, List.mem_singleton] at hc
      rcases hc with hc | rfl
      . exact hcells c hc
      . exact hA.blank
    . rw [encode_end]
      simpa [Tape.lead] using Shows.overrun (t := ⟨cells.reverse, .blank, []⟩) rfl rfl
    . rw [encode_end, regrown_append, regrown_of_ne hne]
      simp [Tape.segment, Tape.lead, Tape.trail, regrown]

theorem exists_forall_shows {A : Alphabet} (hA : A.HasHeads) {xs : List Snapshot}
    (h : ∀ x ∈ xs, (∀ c ∈ x.cells, c ∈ A.declared) ∧ x.head ≤ x.cells.length) :
    ∃ ts : List Tape, ts.length = xs.length ∧ (∀ t ∈ ts, t.view.Within A.declared)
      ∧ List.Forall₂ Shows ts (xs.map encode) ∧ ts.flatMap Tape.segment = regrown (xs.flatMap encode) := by
  induction xs with
  | nil => exact ⟨[], rfl, List.forall_mem_nil _, .nil, rfl⟩
  | cons x xs ih =>
    rw [List.forall_mem_cons] at h
    obtain ⟨t, hwithin, hshows, hsegment⟩ := exists_shows hA h.1.1 h.1.2
    obtain ⟨ts, hlength, hall, hshow, hsegments⟩ := ih h.2
    refine ⟨t :: ts, congrArg (· + 1) hlength, List.forall_mem_cons.mpr ⟨hwithin, hall⟩,
      .cons hshows hshow, ?_⟩
    rw [List.flatMap_cons, List.flatMap_cons, regrown_append, hsegment, hsegments]

theorem origin_ne_stepState {g : Guard} {first : String} {n : Nat} {A : Alphabet} :
    ∀ x ∈ layout g Draft.defaultStart first n A.declared ++ growth g A, x.origin ≠ stepState g := by
  have hclean : Guard.Clean Draft.defaultStart := by decide
  have hstart := (hclean.free g).ne_text_append "_process"
  simp only [layout, growth, List.forall_mem_append, List.forall_mem_cons, List.forall_mem_map,
    Directive.origin_transition, Directive.origin_gadget, layoutPart, growPart, growState, stepState,
    String.append_assoc]
  simp [hstart]

end Segment

namespace Draft

variable {d e : Draft}

theorem Later.step {P : String → Bool} (h : d.Later e)
    (hd : d.Over fun c => c.mapNames (d.guard.rename e.guard) = c)
    (hP : ∀ s c, d.states.lookup s c ≠ none → P (d.guard.rename e.guard s) = true)
    {s s' : String} {t t' : Tape} (hstep : d.Step (s, t) (s', t')) :
    (e.only P).Step (d.guard.rename e.guard s, t) (d.guard.rename e.guard s', t') := by
  cases hstep with
  | @rule _ _ _ a running accepts lookup =>
    have hfocus := Alphabet.mapNames_of_accepts hd.symbols accepts
    have ha := Action.mapNames_of_over (Outcome.over_single.mp (hd.rules _ _ _ hfocus lookup))
    have haccepts := h.accepts _ accepts
    have hlookup := h.lookup _ _ _ lookup
    rw [hfocus] at haccepts hlookup
    rw [Outcome.mapNames_single, ha] at hlookup
    refine Step.rule (d := e.only P) ?_ haccepts ?_
    . rwa [Guard.isTerminal_rename h.size_le]
    . rw [lookup_only (hP s _ (by rw [lookup]; nofun))]
      exact hlookup

theorem Later.reaches {P : String → Bool} (h : d.Later e)
    (hd : d.Over fun c => c.mapNames (d.guard.rename e.guard) = c)
    (hP : ∀ s c, d.states.lookup s c ≠ none → P (d.guard.rename e.guard s) = true)
    {s s' : String} {v v' : View} (hreaches : d.Reaches s v s' v') :
    (e.only P).Reaches (d.guard.rename e.guard s) v (d.guard.rename e.guard s') v' := by
  intro t ht
  obtain ⟨t', ht', hsteps⟩ := hreaches t ht
  refine ⟨t', ht', ?_⟩
  apply Relation.TransGen.lift (fun x : String × Tape => (d.guard.rename e.guard x.1, x.2)) _ _ _ hsteps
  rintro ⟨s, t⟩ ⟨s', t'⟩ hstep
  exact h.step hd hP hstep

open Segment

def upToStep (g : Guard) (s : String) : Bool := s ≠ stepState g

namespace Opened

variable {A : Alphabet} {first : String} {n : Nat} (hd : d.Opened first n A)

include hd

theorem lookup_stepState (c : Cell) : d.states.lookup (stepState d.guard) c = none := by
  obtain ⟨names, h⟩ := hd.executed
  by_contra hlookup
  obtain ⟨x, hx, hserves⟩ := h.exists_serves (serves_stepState d.guard).not_generates hlookup
  rw [common, List.mem_append, List.mem_append, List.mem_cons] at hx
  have hidle (s : String) (hs : x = .idle s) : False := by
    rw [hs, Directive.not_serves_idle] at hserves
    cases hserves
  rcases hx with hx | hx | hx | hx
  . obtain ⟨name, _, heq⟩ := List.mem_map.mp hx
    exact hidle name heq.symm
  . exact origin_ne_stepState x (List.mem_append_left _ hx) (Directive.serves_eq_true_iff.mp hserves).1
  . exact hidle _ hx
  . exact origin_ne_stepState x (List.mem_append_right (layout _ _ first n _) hx)
      (Directive.serves_eq_true_iff.mp hserves).1

theorem over_kept (g : Guard) : d.Over fun c => c.mapNames (d.guard.rename g) = c := by
  have hnameless : ∀ c ∈ Segment.cells A, c.mapNames (d.guard.rename g) = c := by
    intro c hc
    obtain ⟨b, hb, hc⟩ := isBare_of_mem_cells hd.heads hc
    have hbare : b.mapNames (d.guard.rename g) = b := by
      rcases hb with hb | hb
      . exact hb.nameless _
      . simp only [List.mem_cons, List.not_mem_nil, or_false] at hb
        rcases hb with rfl | rfl | rfl | rfl <;> rfl
    rcases hc with rfl | rfl
    . exact hbare
    . rw [Cell.mapNames_tagged, hbare]
  apply hd.mentions _ hnameless
  . exact congrArg Cell.state (Guard.rename_of_free hd.free g)
  . intro v
    refine congrArg Cell.state (Guard.rename_of_clean ?_ _ _)
    cases v <;> decide

variable {rs : List Request} (he : e = d.receive rs)

include he

theorem later : d.Later e := by
  subst he
  exact later_receive (by rw [hd.tapes]; nofun) rs

theorem upToStep_rename {s : String} {c : Cell} (h : d.states.lookup s c ≠ none) :
    upToStep e.guard (d.guard.rename e.guard s) = true := by
  rw [upToStep, decide_eq_true_eq, ← rename_stepState (g := d.guard)]
  intro heq
  rw [Guard.rename_injective (hd.later he).size_le heq, hd.lookup_stepState] at h
  exact h rfl

theorem reaches_before {s s' : String} {v v' : View} (h : d.Reaches s v s' v') :
    (e.only (upToStep e.guard)).Reaches (d.guard.rename e.guard s) v (d.guard.rename e.guard s') v' :=
  (hd.later he).reaches (hd.over_kept _) (fun _ _ => hd.upToStep_rename he) h

theorem back_reaches {K : Prop} (hK : K → ∃ name, (backKey d.guard, name) ∈ d.chains)
    (hback : e.Back e.guard K) {v : View} (hfocus : v.focus = .boundLeft) :
    (e.only (upToStep e.guard)).Reaches (backState e.guard) v (stepState e.guard) (v.move .left) := by
  have hmem : Cell.boundLeft ∈ Segment.cells A := by simp [Segment.cells]
  obtain ⟨names, h⟩ := hd.executed
  have hsound := h.obeys.sound
  rcases hback with hmade | hruled
  . obtain ⟨name, hname⟩ := hK hmade
    have hreaches := (hsound.performs _ hname not_false).continuation .left _ rfl v (hfocus ▸ hmem)
      (View.clear_of_distance rfl)
    have hwrap : name = backState d.guard := (hsound.formed _ hname (by simp [backKey])).2
    have := hd.reaches_before he hreaches
    rwa [hwrap, rename_backState, rename_stepState] at this
  . have haccepts : e.alphabet.accepts .boundLeft = true :=
      (hd.later he).accepts _ (hsound.accepts _ hmem)
    have hbefore : upToStep e.guard (backState e.guard) = true := by
      rw [upToStep, decide_eq_true_eq]
      exact (ReadsNames.ne_backState (.inl rfl)).symm
    have := (hruled.only hbefore).reaches (generates_backState _).running
      (List.forall_mem_singleton.mpr haccepts) (v := v) (List.mem_singleton.mpr hfocus)
    rwa [show v.write (Writing.keep.onto v.focus) = v from v.write_focus] at this

variable {q : String} {ts : List Tape} (hne : ts ≠ [])

include hne

theorem resume_reaches {K : Prop} (hK : K → ∃ name, (backKey d.guard, name) ∈ d.chains)
    (hq : e.Returns e.guard K q) :
    (e.only (upToStep e.guard)).Reaches (growPart e.guard "done") (shared q ts) (stepState e.guard)
      (shared q ts) := by
  have hbefore : upToStep e.guard (growPart e.guard "done") = true := by
    rw [upToStep, decide_eq_true_eq]
    exact (stepState_ne_done _).symm
  have hrunning : isTerminal (growPart e.guard "done") = false := by
    rw [growPart, growState, String.append_assoc, String.append_assoc]
    exact Guard.isTerminal_text_append _ _
  have hfocus : (shared q ts).focus = .state q := View.focus_of_cons _ _ _
  have hreaches {m : Move} {next : String}
      (hruled : e.Ruled [.state q] (growPart e.guard "done") (.put (.state q)) m next) :
      (e.only (upToStep e.guard)).Reaches (growPart e.guard "done") (shared q ts) next
        ((shared q ts).move m) := by
    have := (hruled.only hbefore).reaches hrunning
      (List.forall_mem_singleton.mpr hq.accepts) (List.mem_singleton.mpr hfocus)
    rwa [Writing.onto, ← hfocus, View.write_focus] at this
  rcases hq.rules with hstay | ⟨hright, hback⟩
  . have := hreaches hstay
    rwa [View.move_stay] at this
  . obtain ⟨t, ts, rfl⟩ := List.exists_cons_of_ne_nil hne
    have hmove : (shared q (t :: ts)).move .right
        = .of [.start, .state q] ((t :: ts).flatMap Tape.segment ++ [.afterLast]) :=
      View.move_right_of [.start] (.state q) _
    have hleft := hd.back_reaches he hK hback (v := (shared q (t :: ts)).move .right)
      (by rw [hmove]; exact View.focus_of_cons _ _ _)
    have hreturn : ((shared q (t :: ts)).move .right).move .left = shared q (t :: ts) := by
      rw [hmove]
      exact View.move_left_of [.start] (.state q) _
    rw [hreturn] at hleft
    exact (hreaches hright).trans hleft

theorem stop_reaches (v : Verdict) :
    (e.only (upToStep e.guard)).Reaches (growPart e.guard "done") (shared v.state ts) v.state
      (shared v.state ts) := by
  obtain ⟨t, ts, rfl⟩ := List.exists_cons_of_ne_nil hne
  have hmem : .replace (growPart d.guard "done") (.state v.state) (.state v.state) .stay v.state
      ∈ growth d.guard A :=
    List.mem_append_right _ (List.mem_map.mpr ⟨v, by cases v <;> decide, rfl⟩)
  have hheeds := hd.prepared.heeds _ (mem_common_of_growth hmem) nofun
  have hbound : Cell.boundLeft ∈ Segment.cells A := by simp [Segment.cells]
  have hreaches := hheeds.put rfl [.start] (View.clear_of_stay _ _ hbound _)
    (r := .boundLeft :: (t.before.reverse ++ t.focus.tagged :: t.trail ++ ts.flatMap Tape.segment
      ++ [.afterLast]))
  rw [View.move_stay] at hreaches
  have hview : View.of [.start] (.state v.state :: .boundLeft :: (t.before.reverse ++ t.focus.tagged :: t.trail
      ++ ts.flatMap Tape.segment ++ [.afterLast])) = shared v.state (t :: ts) := by
    simp [shared, Tape.segment, Tape.lead]
  rw [hview] at hreaches
  have := hd.reaches_before he hreaches
  have hclean : Guard.Clean v.state := by cases v <;> decide
  rwa [rename_growPart (by decide), Guard.rename_of_clean hclean] at this

end Opened

end Draft

open Segment

theorem Segment.regrown_line (q : String) (tapes : List Snapshot) :
    regrown (line q tapes) = [.start, .state q] ++ regrown (tapes.flatMap encode) ++ [.afterLast] := by
  have hline : line q tapes = [.start, .state q] ++ tapes.flatMap encode ++ [.afterLast] := rfl
  rw [hline, regrown_append, regrown_append]
  rfl

/--
The segments of a shared tape, some of which have the tag of their head on the right boundary, are put in
shape: each of these boundaries gives way to a new cell with the tag, and nothing else is changed. The head
is on the name of the state then, and the machine is where a step begins, or where it stops.
-/
theorem overrun_segments_grow {ω : Type} [Observer ω] {rs rs' : List Request} {n : Nat} {first : String}
    {d e : Draft} (hd : d = (Draft.new Draft.defaultStart).receive rs)
    (hletters : ∀ c ∈ d.alphabet.declared, c.IsLetter)
    (hshared : d.features.enabled .multiTape = false)
    (hok : (Build.submit (.tapes n first)).succeeds d = true)
    (he : e = (Draft.new Draft.defaultStart).receive (rs ++ .tapes n first :: rs'))
    {s : Session ω} (hmachine : s.machine = e.compile) {q : String}
    (hq : isTerminal q = true ∨ e.states.lookup (stepState e.guard) (.state q) ≠ none)
    {tapes : List Snapshot} (hlength : tapes.length = n)
    (htapes : ∀ t ∈ tapes, (∀ c ∈ t.cells, c ∈ d.alphabet.declared) ∧ t.head ≤ t.cells.length)
    {blanks : Nat} (hstate : s.state = growState e.guard)
    (htape : s.tapes.map Tape.snapshot = [⟨line q tapes ++ List.replicate blanks .blank, 2⟩]) :
    ∃ k blanks, (s.run k).2.state = (if isTerminal q then q else stepState e.guard)
      ∧ (s.run k).2.tapes.map Tape.snapshot
        = [⟨regrown (line q tapes) ++ List.replicate blanks .blank, 1⟩]
      ∧ ∀ j < k, isTerminal (s.run j).2.state = false ∧ (s.run j).2.state ≠ stepState e.guard := by
  obtain ⟨hn, hundecided, _⟩ := Build.setTapes_eq_ok (Build.eq_ok_of_succeeds hok)
  have huntouched : d.Untouched := by
    subst hd
    exact Draft.untouched_receive hundecided
  obtain ⟨d₁, A, hopen, hopened, hdeclared⟩ := huntouched.exists_opened hshared hn first hletters
  have hlater : e = d₁.receive rs' := by
    rw [he, Draft.receive_append, ← hd, Draft.receive_cons, Build.after, hopen]
  have hresumes : e.Resumes e.guard _ := hlater ▸ hopened.resumes.receive hopened.tapes rs'
  rw [← hdeclared] at htapes
  obtain ⟨ts, hsize, hwithin, hshows, hsegments⟩ := exists_forall_shows hopened.heads htapes
  have hne : ts ≠ [] := by
    rintro rfl
    rw [hlength] at hsize
    cases hsize
    exact absurd hn (by decide)
  -- The pass itself is that of the draft on which the tapes were opened.
  have hgrow := hopened.reaches_before hlater
    (hopened.prepared.grow_reaches hopened.heads (q := q) hne hwithin hshows)
  rw [rename_growState, rename_growPart (by decide)] at hgrow
  have hend : (e.only (Draft.upToStep e.guard)).Reaches (growPart e.guard "done") (shared q ts)
      (if isTerminal q then q else stepState e.guard) (shared q ts) := by
    split
    . next hterminal =>
      obtain ⟨v, hv⟩ := Option.isSome_iff_exists.mp hterminal
      obtain rfl := Verdict.ofState?_eq_some_iff.mp hv
      exact hopened.stop_reaches hlater hne v
    . next hterminal =>
      have hreturns := hresumes.returns q (Bool.eq_false_iff.mpr hterminal) (hq.resolve_left hterminal)
      exact hopened.resume_reaches hlater hne id hreturns
  obtain ⟨tape, htape, hsnapshot⟩ := List.map_eq_singleton_iff.mp htape
  obtain ⟨hcells, hposition⟩ := Snapshot.mk.inj hsnapshot
  have hview : tape.view = .of [.start, .state q] ((tapes.map encode).flatten ++ [.afterLast]) := by
    have : tape.view = .of [.start, .state q]
        (tapes.flatMap encode ++ [.afterLast] ++ List.replicate blanks .blank) :=
      Tape.view_of_cells hposition (by rw [hcells, line]; simp)
    rw [this, View.of_append_blanks, List.flatMap_def]
  obtain ⟨tape', hview', hsteps⟩ := (hgrow.trans hend) tape hview
  obtain ⟨k, hk, hbefore⟩ := Draft.iterate_next_of_only hsteps
  have hconfig : s.config = ⟨growState e.guard, [tape]⟩ := by rw [Session.config, hstate, htape]
  have hrun (j : Nat) : (s.run j).2.config = e.compile.next^[j] ⟨growState e.guard, [tape]⟩ := by
    rw [(Session.run_eq j s).1, hmachine, hconfig]
  obtain ⟨hstate', htapes'⟩ := Config.mk.inj ((hrun k).trans hk)
  obtain ⟨hposition', blanks', hcells'⟩ := cells_of_shared hview'
  refine ⟨k, blanks', hstate', ?_, ?_⟩
  . rw [htapes', List.map_singleton, Tape.snapshot, hposition', hcells', hsegments, regrown_line]
  . intro j hj
    have hj' := hbefore j hj
    rw [← hrun j, Draft.upToStep, decide_eq_true_eq] at hj'
    exact hj'

theorem Session.tapes_restore_new {m : Machine} (h : m.physicalTapes = 1) (state : String) (x : Snapshot) :
    ((Session.new m ()).restore ⟨state, [x]⟩).tapes = [.ofSnapshot x] := by
  rw [Session.restore, Session.new, h]
  rfl

/-- Both heads have left their segments, one of which is empty; no rule can leave the head where it is. -/
theorem overrun_segments_grow_together :
    let a := Cell.ofChar 'a'
    let rs : List Request :=
      [ .alphabets [a] [],
        .features [.multiMatch, .multiMatchNoChange, .wildcard, .moveMulti, .gadgetShift] ]
    let t : JointTransition := ⟨"q", .tapes [.cell a, .cell a], [.keep, .keep], [.right, .right], "q"⟩
    let e := (Draft.new Draft.defaultStart).receive (rs ++ [.tapes 2 "q", .joint t])
    let session (q : String) : Session Unit :=
      (Session.new e.compile ()).restore ⟨growState e.guard, [⟨line q [⟨[a], 1⟩, ⟨[], 0⟩], 2⟩]⟩
    let grown (q : String) : List Cell :=
      [.start, .state q, .boundLeft, a, Cell.blank.tagged, .boundRight, .boundLeft, Cell.blank.tagged,
        .boundRight, .afterLast]
    ((Draft.new Draft.defaultStart).answers (rs ++ [.tapes 2 "q", .joint t]) = [true, true, true, true]
      ∧ e.states.lookup (stepState e.guard) (.state "q") ≠ none)
    ∧ (∃ k blanks, ((session "q").run k).2.state = stepState e.guard
      ∧ ((session "q").run k).2.tapes.map Tape.snapshot
        = [⟨grown "q" ++ List.replicate blanks .blank, 1⟩])
    ∧ ∃ k blanks, ((session "ACCEPT").run k).2.state = "ACCEPT"
      ∧ ((session "ACCEPT").run k).2.tapes.map Tape.snapshot
        = [⟨grown "ACCEPT" ++ List.replicate blanks .blank, 1⟩] := by
  intro a rs t e session grown
  have hbuild : (Draft.new Draft.defaultStart).answers (rs ++ [.tapes 2 "q", .joint t])
        = [true, true, true, true] ∧ e.compile.physicalTapes = 1 := by
    decide +kernel
  have hd : ((Draft.new Draft.defaultStart).receive rs).alphabet.declared = [a, .blank]
      ∧ ((Draft.new Draft.defaultStart).receive rs).features.enabled .multiTape = false
      ∧ (Build.submit (.tapes 2 "q")).succeeds ((Draft.new Draft.defaultStart).receive rs) = true
      ∧ (Build.submit (.joint t)).succeeds
        ((Draft.new Draft.defaultStart).receive (rs ++ [.tapes 2 "q"])) = true := by
    decide +kernel
  have htape (q : String) : (session q).tapes.map Tape.snapshot
      = [⟨line q [⟨[a], 1⟩, ⟨[], 0⟩] ++ List.replicate 0 .blank, 2⟩] := by
    rw [Session.tapes_restore_new hbuild.2]
    rfl
  have hletters : ∀ c ∈ ((Draft.new Draft.defaultStart).receive rs).alphabet.declared, c.IsLetter := by
    rw [hd.1, List.forall_mem_cons, List.forall_mem_singleton]
    exact ⟨.inl ⟨'a', rfl⟩, .inr rfl⟩
  have htapes : ∀ x ∈ [(⟨[a], 1⟩ : Snapshot), ⟨[], 0⟩],
      (∀ c ∈ x.cells, c ∈ ((Draft.new Draft.defaultStart).receive rs).alphabet.declared)
        ∧ x.head ≤ x.cells.length := by
    rw [hd.1]
    decide
  have he : e = (Draft.new Draft.defaultStart).receive (rs ++ .tapes 2 "q" :: [.joint t]) := rfl
  have haccepted : e = ((Draft.new Draft.defaultStart).receive (rs ++ [.tapes 2 "q"])).receive [.joint t] := by
    rw [← Draft.receive_append, List.append_assoc, List.singleton_append]
  have hopened : (Draft.new Draft.defaultStart).receive (rs ++ [.tapes 2 "q"])
      = (Draft.new Draft.defaultStart).receive (rs ++ .tapes 2 "q" :: []) := rfl
  have hread : .oneOf [] ∉ t.read.perTape 2 := by decide
  have hknown := lookup_origin_of_accepted rfl hletters hd.2.1 hd.2.2.1 hopened hread hd.2.2.2 haccepted
  refine ⟨⟨hbuild.1, hknown⟩, ?_, ?_⟩
  . obtain ⟨k, blanks, hstate, htape, _⟩ := overrun_segments_grow rfl hletters hd.2.1 hd.2.2.1 he
      (s := session "q") rfl (.inr hknown) rfl htapes rfl (htape "q")
    exact ⟨k, blanks, hstate, htape⟩
  . obtain ⟨k, blanks, hstate, htape, _⟩ := overrun_segments_grow rfl hletters hd.2.1 hd.2.2.1 he
      (s := session "ACCEPT") rfl (.inl (by decide)) rfl htapes rfl (htape "ACCEPT")
    exact ⟨k, blanks, hstate, htape⟩

end TuringLowering
