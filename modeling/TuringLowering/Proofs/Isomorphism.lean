import TuringLowering.Proofs.Renaming
import TuringLowering.Proofs.Runs

/-!
This module contains the proof that a machine in which states are renamed does the same as before, step by
step, with these names on its tapes. No two names may become one, and those of the verdicts are kept.
-/

namespace TuringLowering

structure Faithful (f : String → String) : Prop where
  injective : Function.Injective f
  verdict : ∀ v : Verdict, f v.state = v.state

theorem Faithful.ofState? {f : String → String} (hf : Faithful f) (s : String) :
    Verdict.ofState? (f s) = Verdict.ofState? s := by
  ext v
  rw [Verdict.ofState?_eq_some_iff, Verdict.ofState?_eq_some_iff, ← hf.verdict v, hf.injective.eq_iff,
    hf.verdict]

theorem Faithful.progress {f : String → String} (hf : Faithful f) (s : String) :
    Progress.ofState (f s) = .ofState s := by
  rw [Progress.ofState, hf.ofState?, Progress.ofState]

namespace Tape

def mapNames (f : String → String) (t : Tape) : Tape :=
  ⟨t.before.map (Cell.mapNames f), t.focus.mapNames f, t.after.map (Cell.mapNames f)⟩

section

variable (f : String → String) (t : Tape)

theorem position_mapNames : (t.mapNames f).position = t.position := List.length_map _

theorem mapNames_write (c : Cell) : (t.write c).mapNames f = (t.mapNames f).write (c.mapNames f) := rfl

theorem mapNames_stepRight : t.stepRight.mapNames f = (t.mapNames f).stepRight := by
  obtain ⟨before, c, after⟩ := t
  cases after <;> rfl

theorem mapNames_goRight (n : Nat) : (goRight n t).mapNames f = goRight n (t.mapNames f) := by
  induction n generalizing t with
  | zero => rfl
  | succ n ih => rw [goRight, goRight, ih, mapNames_stepRight]

theorem mapNames_goLeft (n : Nat) : (goLeft n t).mapNames f = goLeft n (t.mapNames f) := by
  fun_induction goLeft n t with
  | case1 => rfl
  | case2 => rfl
  | case3 n b before c after ih => exact ih

theorem mapNames_pad : t.pad.mapNames f = (t.mapNames f).pad := by
  obtain ⟨before, c, after⟩ := t
  cases after <;> rfl

theorem mapNames_move (m : Move) : (t.move m).mapNames f = (t.mapNames f).move m := by
  unfold move
  split
  . rw [mapNames_pad, mapNames_goLeft]
  . rw [mapNames_pad, mapNames_goRight]

theorem mapNames_carryRight : t.carryRight.mapNames f = (t.mapNames f).carryRight := by
  unfold carryRight
  rw [mapNames_write, mapNames_move, mapNames_write]
  rfl

theorem mapNames_carryBack : t.carryBack.mapNames f = (t.mapNames f).carryBack := by
  unfold carryBack
  rw [mapNames_move, mapNames_carryRight]

end

variable {f : String → String} (hf : Function.Injective f)
include hf

theorem mapNames_seekBlank (t : Tape) : t.seekBlank.mapNames f = (t.mapNames f).seekBlank := by
  have hgo (n : Nat) (t : Tape) : (seekBlank.go n t).mapNames f = seekBlank.go n (t.mapNames f) := by
    induction n generalizing t with
    | zero => rfl
    | succ n ih =>
      have hblank : (t.mapNames f).focus = .blank ↔ t.focus = .blank := @Cell.mapNames_inj f hf t.focus .blank
      simp only [seekBlank.go, hblank]
      split
      . rfl
      . rw [ih, mapNames_move]
  have hlength : (t.mapNames f).after.length = t.after.length := List.length_map _
  rw [seekBlank, seekBlank, hgo, hlength]

theorem mapNames_seekLastWritten (t : Tape) :
    t.seekLastWritten.mapNames f = (t.mapNames f).seekLastWritten := by
  unfold seekLastWritten
  rw [mapNames_move, mapNames_seekBlank hf, mapNames_move]

theorem mapNames_carryUntil (stop : Cell) (t : Tape) :
    (t.mapNames f).carryUntil (stop.mapNames f)
      =
    ((t.carryUntil stop).1, (t.carryUntil stop).2.mapNames f) := by
  have hstop (t : Tape) : (t.mapNames f).focus = stop.mapNames f ↔ t.focus = stop := Cell.mapNames_inj hf
  have hgo (n : Nat) (t : Tape) :
      carryUntil.go (stop.mapNames f) n (t.mapNames f)
        =
      ((carryUntil.go stop n t).1, (carryUntil.go stop n t).2.mapNames f) := by
    induction n generalizing t with
    | zero =>
      simp only [carryUntil.go, hstop]
      split
      . rfl
      . rw [mapNames_carryBack]
    | succ n ih =>
      simp only [carryUntil.go, hstop]
      split
      . rfl
      . rw [← mapNames_carryBack, ih]
  rw [carryUntil, carryUntil, position_mapNames, hgo]

end Tape

section

variable {f : String → String} (hf : Function.Injective f)
include hf

theorem Action.apply_mapNames (a : Action) (t : Tape) :
    (a.mapNames f).apply (t.mapNames f) = (a.apply t).mapNames f := by
  cases a with
  | write c m => rw [mapNames, apply, apply, Tape.mapNames_move, Tape.mapNames_write]
  | preserve m => exact (Tape.mapNames_move f t m).symm
  | shift m =>
    rw [apply, Tape.mapNames_move, Tape.mapNames_carryRight]
    rfl
  | markFirst marker =>
    have hcarry := Tape.mapNames_carryUntil hf .blank t.seekLastWritten
    rw [Tape.mapNames_seekLastWritten hf] at hcarry
    rw [mapNames, apply, apply, Tape.mapNames_move, Tape.mapNames_write]
    exact congrArg (fun found => (Tape.write found.2 _).move .right) hcarry
  | insertAfter marker insert =>
    have hcarry := Tape.mapNames_carryUntil hf marker t.seekLastWritten
    rw [Tape.mapNames_seekLastWritten hf] at hcarry
    rw [mapNames, apply, apply, hcarry]
    rcases t.seekLastWritten.carryUntil marker with ⟨found, t'⟩
    cases found with
    | true => rw [Tape.mapNames_move, Tape.mapNames_write, Tape.mapNames_move]
    | false => rfl

theorem Outcome.apply_mapNames (o : Outcome) (ts : List Tape) :
    (o.mapNames f).apply (ts.map (Tape.mapNames f)) = (o.apply ts).map (Tape.mapNames f) := by
  have hall (as : List Action) (ts : List Tape) :
      applyAll (as.map (Action.mapNames f)) (ts.map (Tape.mapNames f))
        = (applyAll as ts).map (Tape.mapNames f) := by
    fun_induction applyAll as ts with
    | case1 a as t ts ih =>
      rw [List.map_cons, List.map_cons, applyAll, ih, Action.apply_mapNames hf, List.map_cons]
    | case2 as ts hnone =>
      cases as with
      | nil => rfl
      | cons a as =>
        cases ts with
        | nil => rfl
        | cons t ts => exact absurd rfl (hnone a as t ts rfl)
  exact hall o.actions ts

end

/-- What is looked up if the cells are under the heads. -/
def Cell.key : List Cell → Cell
  | [c] => c
  | cells => .joint cells

theorem Session.key_eq (tapes : List Tape) : Session.key tapes = Cell.key (tapes.map Tape.focus) := by
  match tapes with
  | [] => rfl
  | [t] => rfl
  | _ :: _ :: _ => rfl

theorem Cell.key_eq_joint {cells : List Cell} (h : cells.length ≠ 1) : Cell.key cells = .joint cells := by
  unfold key
  split
  . exact absurd rfl h
  . rfl

theorem Cell.mapNames_key (f : String → String) (cells : List Cell) :
    (Cell.key cells).mapNames f = .key (cells.map (Cell.mapNames f)) := by
  by_cases h : cells.length = 1
  . obtain ⟨c, rfl⟩ := List.length_eq_one_iff.mp h
    rfl
  . rw [key_eq_joint h, key_eq_joint (by rwa [List.length_map])]
    exact mapNames_tuple f cells false

theorem Session.key_mapNames (f : String → String) (ts : List Tape) :
    key (ts.map (Tape.mapNames f)) = (key ts).mapNames f := by
  rw [key_eq, key_eq, Cell.mapNames_key, List.map_map, List.map_map]
  rfl

def Config.mapNames (f : String → String) (c : Config) : Config :=
  ⟨f c.state, c.tapes.map (Tape.mapNames f)⟩

namespace Machine

/-- The machine with its states renamed, also where they are symbols. -/
def mapNames (f : String → String) (m : Machine) : Machine :=
  { m with start := f m.start, states := m.states.mapNames f, alphabet := m.alphabet.mapNames f }

variable {f : String → String} (hf : Faithful f) (m : Machine)
include hf

theorem rule?_mapNames (s : String) (c : Cell) :
    (m.mapNames f).rule? (f s) (c.mapNames f) = (m.rule? s c).map (Outcome.mapNames f) := by
  unfold rule?
  have haccepts : (m.mapNames f).alphabet.accepts (c.mapNames f) = m.alphabet.accepts c :=
    Alphabet.accepts_mapNames hf.injective m.alphabet c
  rw [haccepts]
  split
  . exact StateTables.lookup_mapNames hf.injective m.states s c
  . rfl

theorem lookup_mapNames (s : String) (c : Cell) :
    (m.mapNames f).lookup (f s) (c.mapNames f) = (m.lookup s c).mapNames f := by
  have hfallback : (m.mapNames f).fallback = m.fallback.mapNames f := by
    unfold fallback Outcome.mapNames
    rw [hf.verdict, List.map_replicate]
    rfl
  unfold lookup
  rw [rule?_mapNames hf, hfallback]
  cases m.rule? s c <;> rfl

theorem next_mapNames (c : Config) : (m.mapNames f).next (c.mapNames f) = (m.next c).mapNames f := by
  have hterminal : isTerminal (c.mapNames f).state = isTerminal c.state :=
    congrArg Option.isSome (hf.ofState? c.state)
  have hlookup : (m.mapNames f).lookup (c.mapNames f).state (Session.key (c.mapNames f).tapes)
      = (m.lookup c.state (Session.key c.tapes)).mapNames f := by
    rw [← lookup_mapNames hf, ← Session.key_mapNames]
    rfl
  unfold next
  rw [hterminal, hlookup]
  split
  . rfl
  . exact congrArg (Config.mk _) (Outcome.apply_mapNames hf.injective _ c.tapes)

theorem iterate_next_mapNames (c : Config) (k : Nat) :
    (m.mapNames f).next^[k] (c.mapNames f) = (m.next^[k] c).mapNames f := by
  have hsemiconj : Function.Semiconj (Config.mapNames f) m.next (m.mapNames f).next :=
    fun c => (next_mapNames hf m c).symm
  exact (hsemiconj.iterate_right k c).symm

omit hf in
theorem initial_mapNames (word : List Cell) :
    (m.mapNames f).initial (word.map (Cell.mapNames f)) = (m.initial word).mapNames f := by
  have hinput : Tape.ofInput (word.map (Cell.mapNames f)) = (Tape.ofInput word).mapNames f := by
    cases word with
    | nil => rfl
    | cons c cs => simp [Tape.ofInput, Tape.mapNames, Mark.mapNames]
  have htapes : Session.inputTapes m.physicalTapes (word.map (Cell.mapNames f))
      = (Session.inputTapes m.physicalTapes word).map (Tape.mapNames f) := by
    cases m.physicalTapes with
    | zero => rfl
    | succ n =>
      rw [Session.inputTapes, Session.inputTapes, List.map_cons, hinput, List.map_replicate]
      rfl
  exact congrArg (Config.mk (f m.start)) htapes

/-- The run on a renamed input goes through the renamed configurations, and is as long and ends as before. -/
theorem ran_mapNames (word : List Cell) (k : Nat) :
    ((m.mapNames f).ran (word.map (Cell.mapNames f)) k).1 = (m.ran word k).1
      ∧ ((m.mapNames f).ran (word.map (Cell.mapNames f)) k).2.config = (m.ran word k).2.config.mapNames f := by
  have hconfig : ((m.mapNames f).ran (word.map (Cell.mapNames f)) k).2.config
      = (m.ran word k).2.config.mapNames f := by
    rw [config_ran, config_ran, initial_mapNames, iterate_next_mapNames hf]
  refine ⟨?_, hconfig⟩
  cases k with
  | zero => rw [ran, ran, Session.run_zero, Session.run_zero]
  | succ k =>
    have hprogress (m : Machine) (word : List Cell) :
        (m.ran word (k + 1)).1 = .ofState (m.ran word (k + 1)).2.config.state :=
      (Session.run_eq (k + 1) ((Session.new m ()).load word)).2 (Nat.succ_pos k)
    rw [hprogress, hprogress, hconfig]
    exact hf.progress _

end Machine

end TuringLowering
