import Mathlib.Data.List.Intervals
import Mathlib.Order.Bounds.Basic
import TuringLowering.Proofs.View

/-!
This module contains what the actions that make room for a cell do to the tape as a whole: which cells
stand where afterwards, and that the search for the end of the content and the carrying of cells both
come to an end.
-/

namespace TuringLowering

/-- Doing `f` again and again ends in `b`, the first value from `a` on for which `stop` holds. -/
inductive Ends {α : Type} (stop : α → Prop) (f : α → α) : α → α → Prop where
  | done {a : α} (h : stop a) : Ends stop f a a
  | turn {a b : α} (h : ¬ stop a) (rest : Ends stop f (f a) b) : Ends stop f a b

namespace Ends

variable {α : Type} {stop : α → Prop} {f : α → α} {a b : α}

theorem stops (h : Ends stop f a b) : stop b := by
  induction h with
  | done h => exact h
  | turn _ _ ih => exact ih

theorem trans {stop' : α → Prop} {c : α} (h : Ends stop f a b) (himp : ∀ x, stop' x → stop x)
    (h' : Ends stop' f b c) : Ends stop' f a c := by
  induction h with
  | done _ => exact h'
  | turn hstop _ ih => exact .turn (fun hstop' => hstop (himp _ hstop')) (ih h')

end Ends

namespace Tape

/-- The cells from one position up to, and without, another. -/
def between (t : Tape) (a b : Nat) : List Cell := (List.Ico a b).map t.cellAt

theorem position_carryBack (t : Tape) : t.carryBack.position = t.position - 1 :=
  (congrArg View.position t.view_carryBack).trans t.view.position_carryBack

theorem seekBlank_ends (t : Tape) : Ends (·.focus = .blank) (·.move .right) t t.seekBlank := by
  have hblank : ∃ q, t.position ≤ q ∧ q ≤ t.position + (t.after.length + 1) ∧ t.cellAt q = .blank :=
    ⟨_, by omega, Nat.le_refl _, cellAt_of_length_le (by simp [cells, position])⟩
  unfold seekBlank
  revert hblank
  generalize t.after.length + 1 = n
  -- In every turn there is an empty cell that the remaining turns can reach.
  rintro ⟨q, hle, hreach, hblank⟩
  induction n generalizing t with
  | zero =>
    obtain rfl : q = t.position := by omega
    exact .done (t.cellAt_position ▸ hblank)
  | succ n ih =>
    rw [seekBlank.go]
    split
    . next hfocus => exact .done hfocus
    . next hfocus =>
      have hview : (t.move .right).view = ⟨t.position + 1, t.cellAt⟩ := by
        rw [view_move]
        rfl
      have hposition : (t.move .right).position = t.position + 1 := congrArg View.position hview
      have hcells : (t.move .right).cellAt = t.cellAt := congrArg View.cells hview
      have hne : t.position ≠ q := by
        rintro rfl
        exact hfocus (t.cellAt_position ▸ hblank)
      exact .turn hfocus (ih _ (by omega) (by omega) (hcells ▸ hblank))

theorem seekLastWritten_ends (t : Tape) :
    ∃ u, Ends (·.focus = .blank) (·.move .right) (t.move .right) u ∧ t.seekLastWritten = u.move .left :=
  ⟨_, (t.move .right).seekBlank_ends, rfl⟩

theorem carryUntil_ends (stop : Cell) (t : Tape) :
    ∃ u, Ends (fun s => s.focus = stop ∨ s.position = 0) carryBack t u
      ∧ t.carryUntil stop = if u.focus = stop then (true, u) else (false, u.carryBack) := by
  unfold carryUntil
  generalize hn : t.position = n
  induction n generalizing t with
  | zero => exact ⟨t, .done (.inr hn), rfl⟩
  | succ n ih =>
    rw [carryUntil.go]
    by_cases hfocus : t.focus = stop
    . exact ⟨t, .done (.inl hfocus), by rw [if_pos hfocus, if_pos hfocus]⟩
    . obtain ⟨u, hends, hgo⟩ := ih t.carryBack (by rw [position_carryBack, hn]; rfl)
      refine ⟨u, .turn ?_ hends, by rw [if_neg hfocus, hgo]⟩
      rintro (h | h)
      . exact hfocus h
      . omega

theorem focus_carryBack_of_first {t : Tape} (h : t.position = 0) : t.carryBack.focus = .blank := by
  rw [← focus_view, view_carryBack, View.focus, View.position_carryBack, View.cells_carryBack,
    View.cells_carryRight, position_view, h]
  rfl

/-- The first cell of the tape is empty once it was carried, so that an empty cell is always found. -/
theorem carryUntil_blank_ends (t : Tape) :
    Ends (·.focus = .blank) carryBack t (t.carryUntil .blank).2 := by
  obtain ⟨u, hends, heq⟩ := t.carryUntil_ends .blank
  apply hends.trans fun _ => .inl
  rw [heq]
  split
  . next hfocus => exact .done hfocus
  . next hfocus =>
    have hfirst := hends.stops.resolve_left hfocus
    exact .turn hfocus (.done (focus_carryBack_of_first hfirst))

end Tape

namespace View

variable {cells : Nat → Cell}

/-- A cell is put in. Those behind it make room, up to one that is dropped. -/
def inserted (cells : Nat → Cell) (place gap : Nat) (c : Cell) : Nat → Cell := fun i =>
  if i < place then cells i
  else if i = place then c
  else if i ≤ gap then cells (i - 1)
  else cells i

theorem map_inserted (cells : Nat → Cell) {place gap n : Nat} (c : Cell) (hplace : place ≤ gap)
    (hgap : gap ≤ n) :
    (List.Ico 0 (n + 1)).map (inserted cells place gap c)
      =
    (List.Ico 0 place).map cells ++ c :: (List.Ico place gap).map cells
      ++ (List.Ico (gap + 1) (n + 1)).map cells := by
  have hsplit : List.Ico 0 (n + 1) = List.Ico 0 place ++ place :: List.Ico (place + 1) (gap + 1)
      ++ List.Ico (gap + 1) (n + 1) := by
    rw [← List.Ico.eq_cons (by omega), List.Ico.append_consecutive (by omega) (by omega),
      List.Ico.append_consecutive (by omega) (by omega)]
  have hbefore : (List.Ico 0 place).map (inserted cells place gap c) = (List.Ico 0 place).map cells := by
    apply List.map_congr_left
    intro i hi
    exact if_pos (List.Ico.mem.mp hi).2
  have hmoved : (List.Ico (place + 1) (gap + 1)).map (inserted cells place gap c)
      = (List.Ico place gap).map cells := by
    have hIco : List.Ico (place + 1) (gap + 1) = (List.Ico place gap).map (1 + ·) :=
      (List.Ico.map_add place gap 1).symm
    rw [hIco, List.map_map]
    apply List.map_congr_left
    intro i hi
    have hle := List.Ico.mem.mp hi
    have hpred : 1 + i - 1 = i := by omega
    rw [Function.comp_apply, inserted, if_neg (by omega), if_neg (by omega), if_pos (by omega), hpred]
  have hbehind : (List.Ico (gap + 1) (n + 1)).map (inserted cells place gap c)
      = (List.Ico (gap + 1) (n + 1)).map cells := by
    apply List.map_congr_left
    intro i hi
    have hle := (List.Ico.mem.mp hi).1
    rw [inserted, if_neg (by omega), if_neg (by omega), if_neg (by omega)]
  have hplaced : inserted cells place gap c place = c := by
    rw [inserted, if_neg (Nat.lt_irrefl place), if_pos rfl]
  rw [hsplit, List.map_append, List.map_append, List.map_cons, hbefore, hplaced, hmoved, hbehind]

theorem write_carried (cells : Nat → Cell) (e m : Nat) (c : Cell) :
    ((⟨m + 1, carried cells e m⟩ : View).write c).cells = inserted cells (m + 1) (e + 1) c := by
  funext i
  simp only [cells_write, carried, inserted]
  grind

theorem write_carriedAll (cells : Nat → Cell) (e : Nat) (c : Cell) :
    ((⟨0, carriedAll cells e⟩ : View).write c).cells = inserted cells 0 (e + 1) c := by
  funext i
  simp only [cells_write, carriedAll, inserted]
  grind

theorem IsLast.isLeast {v : View} {e : Nat} (h : v.IsLast e) :
    IsLeast {i | v.position < i ∧ v.cells i = .blank} (e + 1) := by
  refine ⟨⟨Nat.lt_succ_of_le h.le, h.blank⟩, ?_⟩
  rintro i ⟨hi, hblank⟩
  apply Nat.le_of_not_lt
  intro hlt
  exact h.written i hi (Nat.le_of_lt_succ hlt) hblank

theorem isNearest_of_isGreatest {stop : Cell} {e m : Nat}
    (h : IsGreatest {i | i < e + 1 ∧ cells i = stop} m) : IsNearest cells stop e m := by
  obtain ⟨⟨hlt, heq⟩, hgreatest⟩ := h
  refine ⟨Nat.le_of_lt_succ hlt, heq, ?_⟩
  intro i hi hle hstop
  exact Nat.not_lt.mpr (hgreatest ⟨Nat.lt_succ_of_le hle, hstop⟩) hi

end View

/--
A cell is inserted after the last marker before the next empty cell, which is taken up; without a marker,
all cells before it are carried and the head stops at the first cell of the tape.
-/
theorem insertAfter_inserts (t : Tape) (marker insert : Cell) :
    let t' := (Action.insertAfter marker insert).apply t
    (∃ u v, Ends (·.focus = .blank) (·.move .right) (t.move .right) u
      ∧ Ends (fun s => s.focus = marker ∨ s.position = 0) Tape.carryBack (u.move .left) v
      ∧ t' = if v.focus = marker then ((v.move .right).write insert).move .right else v.carryBack)
    ∧ ∃ e, IsLeast {i | t.position < i ∧ t.cellAt i = .blank} e
      ∧ (∀ m, IsGreatest {i | i < e ∧ t.cellAt i = marker} m → t'.position = m + 2
        ∧ ∀ n ≥ e, t'.between 0 (n + 1)
          = t.between 0 (m + 1) ++ insert :: t.between (m + 1) e ++ t.between (e + 1) (n + 1))
      ∧ ((∀ i < e, t.cellAt i ≠ marker) → t'.position = 0
        ∧ ∀ n ≥ e, t'.between 0 (n + 1) = .blank :: t.between 0 e ++ t.between (e + 1) (n + 1)) := by
  intro t'
  constructor
  . obtain ⟨u, hu, hseek⟩ := t.seekLastWritten_ends
    obtain ⟨v, hv, hcarry⟩ := (u.move .left).carryUntil_ends marker
    refine ⟨u, v, hu, hv, ?_⟩
    change Action.apply _ t = _
    rw [Action.apply, hseek, hcarry]
    by_cases hfocus : v.focus = marker
    . rw [if_pos hfocus, if_pos hfocus]
    . rw [if_neg hfocus, if_neg hfocus]
  . obtain ⟨e, he⟩ := t.exists_isLast
    refine ⟨e + 1, he.isLeast, ?_, ?_⟩
    . intro m hm
      have hview : t'.view = _ := Action.view_insertAfter_found he (View.isNearest_of_isGreatest hm)
      clear_value t'
      have hcells : t'.cellAt = View.inserted t.cellAt (m + 1) (e + 1) insert :=
        (congrArg View.cells hview).trans (View.write_carried t.cellAt e m insert)
      refine ⟨congrArg View.position hview, ?_⟩
      intro n hn
      have hle : m + 1 ≤ e + 1 := hm.1.1
      rw [Tape.between, hcells, View.map_inserted _ _ hle hn]
      rfl
    . intro hm
      have hview : t'.view = _ :=
        Action.view_insertAfter_missing he fun i hi => hm i (Nat.lt_succ_of_le hi)
      clear_value t'
      have hcells : t'.cellAt = View.inserted t.cellAt 0 (e + 1) .blank := by
        rw [← View.write_carriedAll]
        exact (congrArg View.cells hview).trans (congrArg View.cells (View.write_focus _)).symm
      refine ⟨congrArg View.position hview, ?_⟩
      intro n hn
      rw [Tape.between, hcells, View.map_inserted _ _ (Nat.zero_le _) hn]
      rfl

namespace View

theorem IsNearest.isLeast {v : View} {e m : Nat} (h : IsNearest v.cells .blank e m) (he : v.IsLast e)
    (hfocus : v.focus ≠ .blank) :
    IsLeast {i | ∀ j, i ≤ j → j ≤ v.position → v.cells j ≠ .blank} (m + 1) := by
  have hlt : m < v.position := by
    apply Nat.lt_of_not_le
    intro hle
    rcases Nat.lt_or_eq_of_le hle with hlt | rfl
    . exact he.written m hlt h.le h.eq
    . exact hfocus h.eq
  constructor
  . intro j hj hle
    exact h.ne j hj (Nat.le_trans hle he.le)
  . intro i hi
    apply Nat.le_of_not_lt
    intro him
    exact hi m (Nat.le_of_lt_succ him) (Nat.le_of_lt hlt) h.eq

theorem map_write_carried (cells : Nat → Cell) {e m n : Nat} (c : Cell) (hm : m ≤ e) (hn : e + 1 ≤ n) :
    (List.Ico 0 (n + 1)).map ((⟨m, carried cells e m⟩ : View).write c).cells
      =
    (List.Ico 0 m).map cells ++ c :: .blank :: (List.Ico (m + 1) (e + 1)).map cells
      ++ (List.Ico (e + 1 + 1) (n + 1)).map cells := by
  have hcells : ((⟨m, carried cells e m⟩ : View).write c).cells
      = inserted (fun i => if i = m then c else cells i) (m + 1) (e + 1) .blank := by
    funext i
    simp only [cells_write, carried, inserted]
    grind
  have hbefore : (List.Ico 0 (m + 1)).map (fun i => if i = m then c else cells i)
      = (List.Ico 0 m).map cells ++ [c] := by
    rw [← List.Ico.append_consecutive (Nat.zero_le m) (Nat.le_succ m), List.Ico.succ_singleton,
      List.map_append, List.map_singleton, if_pos rfl]
    congr 1
    apply List.map_congr_left
    intro i hi
    exact if_neg (Nat.ne_of_lt (List.Ico.mem.mp hi).2)
  have hbehind {a : Nat} (b : Nat) (ha : m < a) :
      (List.Ico a b).map (fun i => if i = m then c else cells i) = (List.Ico a b).map cells := by
    apply List.map_congr_left
    intro i hi
    exact if_neg (Nat.ne_of_gt (Nat.lt_of_lt_of_le ha (List.Ico.mem.mp hi).1))
  rw [hcells, map_inserted _ _ (Nat.succ_le_succ hm) hn, hbefore, hbehind _ (Nat.lt_succ_self m),
    hbehind _ (by omega), List.append_assoc, List.append_assoc, List.append_assoc]
  rfl

end View

/--
The cells of the run that the head is on are carried to the right. The marker is written in front of them
if they begin with the first cell of the tape; otherwise it is written into the empty cell before the run,
and the cell that the run has left stays empty.
-/
theorem markFirst_marks {t : Tape} (hfocus : t.focus ≠ .blank) (marker : Cell) :
    let t' := (Action.markFirst marker).apply t
    (∃ u v, Ends (·.focus = .blank) (·.move .right) (t.move .right) u
      ∧ Ends (·.focus = .blank) Tape.carryBack (u.move .left) v ∧ t' = (v.write marker).move .right)
    ∧ ∃ s e, IsLeast {i | ∀ j, i ≤ j → j ≤ t.position → t.cellAt j ≠ .blank} s
      ∧ IsLeast {i | t.position < i ∧ t.cellAt i = .blank} e
      ∧ (s = 0 → t'.position = s + 1
        ∧ ∀ n ≥ e, t'.between 0 (n + 1)
          = t.between 0 s ++ marker :: t.between s e ++ t.between (e + 1) (n + 1))
      ∧ (0 < s → t'.position = s
        ∧ ∀ n ≥ e, t'.between 0 (n + 1)
          = t.between 0 (s - 1) ++ marker :: .blank :: t.between s e ++ t.between (e + 1) (n + 1)) := by
  intro t'
  constructor
  . obtain ⟨u, hu, hseek⟩ := t.seekLastWritten_ends
    refine ⟨u, _, hu, (u.move .left).carryUntil_blank_ends, ?_⟩
    change Action.apply _ t = _
    rw [Action.apply, hseek]
  . obtain ⟨e, he⟩ := t.exists_isLast
    by_cases hblank : ∃ i ≤ e, t.cellAt i = .blank
    . obtain ⟨i, hi, hblank⟩ := hblank
      obtain ⟨m, hm⟩ := View.exists_isNearest hi hblank
      have hview : t'.view = _ := Action.view_markFirst_found he hm
      clear_value t'
      refine ⟨m + 1, e + 1, hm.isLeast he (t.focus_view ▸ hfocus), he.isLeast,
        fun h => absurd h (Nat.succ_ne_zero m), fun _ => ?_⟩
      refine ⟨congrArg View.position hview, ?_⟩
      intro n hn
      rw [Tape.between, ← Tape.cells_view, hview, View.cells_move, View.map_write_carried _ _ hm.le hn]
      rfl
    . have hwritten : ∀ i ≤ e, t.cellAt i ≠ .blank := fun i hi heq => hblank ⟨i, hi, heq⟩
      have hview : t'.view = _ := Action.view_markFirst_missing he hwritten
      clear_value t'
      refine ⟨0, e + 1, ⟨?_, fun i _ => Nat.zero_le i⟩, he.isLeast, fun _ => ?_,
        fun h => absurd h (Nat.lt_irrefl 0)⟩
      . intro j _ hle
        exact hwritten j (Nat.le_trans hle he.le)
      . refine ⟨congrArg View.position hview, ?_⟩
        intro n hn
        have hcells : t'.cellAt = _ := (congrArg View.cells hview).trans (View.write_carriedAll ..)
        rw [Tape.between, hcells, View.map_inserted _ _ (Nat.zero_le _) hn]
        rfl

/-- A run behind an empty cell, with the head on its last cell. -/
theorem markFirst_marks_inner_run :
    let t : Tape := ⟨[.literal "a", .blank], .literal "b", []⟩
    let t' := (Action.markFirst .start).apply t
    t.focus ≠ .blank ∧ t'.position = 1
      ∧ t'.between 0 4 = [.start, .blank, .literal "a", .literal "b"] := by
  intro t t'
  have hfocus : t.focus ≠ .blank := by decide
  obtain ⟨_, s, e, hs, he, _, hinner⟩ := markFirst_marks hfocus .start
  have hs' : IsLeast {i | ∀ j, i ≤ j → j ≤ t.position → t.cellAt j ≠ .blank} 1 := by
    constructor
    . intro j hj hle
      obtain rfl | rfl : j = 1 ∨ j = 2 := by
        have : j ≤ 2 := hle
        omega
      . decide
      . decide
    . intro i hi
      apply Nat.pos_of_ne_zero
      rintro rfl
      exact hi 0 (Nat.le_refl 0) (Nat.zero_le _) rfl
  have he' : IsLeast {i | t.position < i ∧ t.cellAt i = .blank} 3 := by
    refine ⟨⟨by decide, rfl⟩, ?_⟩
    rintro i ⟨hi, _⟩
    exact hi
  obtain rfl : s = 1 := hs.unique hs'
  obtain rfl : e = 3 := he.unique he'
  obtain ⟨hposition, hcells⟩ := hinner Nat.one_pos
  refine ⟨hfocus, hposition, ?_⟩
  rw [hcells 3 (Nat.le_refl 3)]
  decide

/-- Where an empty cell stands before the run, the marker does not go into the cell that was left. -/
theorem markFirst_leaves_empty :
    let t : Tape := ⟨[.blank], .literal "a", []⟩
    let t' := (Action.markFirst .start).apply t
    t'.position = 1 ∧ t'.between 0 3 = [.start, .blank, .literal "a"]
      ∧ t'.between 0 3 ≠ t.between 0 1 ++ .start :: t.between 1 2 := by
  decide

end TuringLowering
