import TuringLowering.Action

/-!
This module contains what can be seen of a tape: the position of the head and the cells, padded
without end. What an action does to a tape is said here for its view, on which movements are sums and
empty cells at the end of a tape make no difference.
-/

namespace TuringLowering

structure View where
  position : Nat
  cells : Nat → Cell

namespace View

@[ext]
theorem ext {v v' : View} (hposition : v.position = v'.position)
    (hcells : ∀ i, v.cells i = v'.cells i) : v = v' := by
  cases v
  cases v'
  simp only [mk.injEq]
  exact ⟨hposition, funext hcells⟩

def focus (v : View) : Cell := v.cells v.position

def write (v : View) (c : Cell) : View :=
  { v with cells := fun i => if i = v.position then c else v.cells i }

/-- The first cell cannot be left to the left. -/
def move (v : View) (m : Move) : View :=
  { v with position := (v.position + m.offset).toNat }

@[simp]
theorem position_write (v : View) (c : Cell) : (v.write c).position = v.position := rfl

@[simp]
theorem cells_write (v : View) (c : Cell) (i : Nat) :
    (v.write c).cells i = if i = v.position then c else v.cells i := rfl

@[simp]
theorem position_move (v : View) (m : Move) :
    (v.move m).position = (v.position + m.offset).toNat := rfl

@[simp]
theorem cells_move (v : View) (m : Move) : (v.move m).cells = v.cells := rfl

theorem write_focus (v : View) : v.write v.focus = v := by
  ext i
  . rfl
  . rw [cells_write]
    split
    . next h => rw [h, focus]
    . rfl

theorem move_stay (v : View) : v.move .stay = v := by
  ext i
  . simp
  . rfl

def carryRight (v : View) : View := ((v.write .blank).move .right).write v.focus

def carryBack (v : View) : View := v.carryRight.move (.leftBy 2)

@[simp]
theorem position_carryRight (v : View) : v.carryRight.position = v.position + 1 := rfl

@[simp]
theorem cells_carryRight (v : View) (i : Nat) :
    v.carryRight.cells i
      =
    if i = v.position + 1 then v.focus else if i = v.position then .blank else v.cells i := rfl

@[simp]
theorem position_carryBack (v : View) : v.carryBack.position = v.position - 1 := by
  have : (Move.leftBy 2).offset = -2 := by decide
  simp only [carryBack, position_move, position_carryRight, this]
  omega

@[simp]
theorem cells_carryBack (v : View) : v.carryBack.cells = v.carryRight.cells := rfl

structure IsLast (v : View) (e : Nat) : Prop where
  le : v.position ≤ e
  blank : v.cells (e + 1) = .blank
  written : ∀ i, v.position < i → i ≤ e → v.cells i ≠ .blank

theorem exists_isLast {v : View} {n : Nat} (h : v.cells (v.position + 1 + n) = .blank) :
    ∃ e, v.IsLast e := by
  obtain ⟨p, cells⟩ := v
  induction n generalizing p with
  | zero => exact ⟨p, Nat.le_refl p, h, by intro i hi hi'; dsimp only at hi; omega⟩
  | succ n ih =>
    by_cases hp : cells (p + 1) = .blank
    . exact ⟨p, Nat.le_refl p, hp, by intro i hi hi'; dsimp only at hi; omega⟩
    . have h : cells (p + 1 + 1 + n) = .blank := by
        rw [← h]
        dsimp only
        congr 1
        omega
      obtain ⟨e, hle, hblank, hwritten⟩ := ih (p + 1) h
      dsimp only at hle hblank hwritten
      refine ⟨e, Nat.le_of_succ_le hle, hblank, ?_⟩
      intro i hi hi'
      dsimp only at hi ⊢
      by_cases heq : i = p + 1
      . rwa [heq]
      . exact hwritten i (by omega) hi'

structure IsNearest (cells : Nat → Cell) (stop : Cell) (e m : Nat) : Prop where
  le : m ≤ e
  eq : cells m = stop
  ne : ∀ i, m < i → i ≤ e → cells i ≠ stop

theorem exists_isNearest {cells : Nat → Cell} {stop : Cell} {e i : Nat} (hi : i ≤ e)
    (h : cells i = stop) : ∃ m, IsNearest cells stop e m := by
  induction e with
  | zero =>
    obtain rfl : i = 0 := by omega
    exact ⟨0, Nat.le_refl 0, h, by intro j hj hj'; omega⟩
  | succ e ih =>
    by_cases he : cells (e + 1) = stop
    . exact ⟨e + 1, Nat.le_refl _, he, by intro j hj hj'; omega⟩
    . have hne : i ≠ e + 1 := by
        rintro rfl
        exact he h
      obtain ⟨m, hle, heq, hne'⟩ := ih (by omega)
      refine ⟨m, by omega, heq, ?_⟩
      intro j hj hj'
      by_cases hje : j = e + 1
      . rwa [hje]
      . exact hne' j hj (by omega)

/-- The cells after those in `(m, e]` were carried one cell to the right. -/
def carried (cells : Nat → Cell) (e m : Nat) : Nat → Cell := fun i =>
  if i ≤ m then cells i
  else if i = m + 1 then .blank
  else if i ≤ e + 1 then cells (i - 1)
  else cells i

def carriedAll (cells : Nat → Cell) (e : Nat) : Nat → Cell := fun i =>
  if i = 0 then .blank
  else if i ≤ e + 1 then cells (i - 1)
  else cells i

theorem carried_self {cells : Nat → Cell} {e : Nat} (h : cells (e + 1) = .blank) :
    carried cells e e = cells := by
  funext i
  unfold carried
  grind

@[simp]
theorem focus_carried (cells : Nat → Cell) (e m : Nat) :
    focus ⟨m, carried cells e m⟩ = cells m := if_pos (Nat.le_refl m)

theorem carried_succ (cells : Nat → Cell) (e m : Nat) : carried cells e m (m + 1) = .blank := by
  rw [carried, if_neg (Nat.not_succ_le_self m), if_pos rfl]

theorem carryBack_carried (cells : Nat → Cell) {e m : Nat} (h : m < e) :
    carryBack ⟨m + 1, carried cells e (m + 1)⟩ = ⟨m, carried cells e m⟩ := by
  ext i
  . simp
  . simp only [cells_carryBack, cells_carryRight, focus, carried]
    grind

theorem carryBack_carried_zero (cells : Nat → Cell) (e : Nat) :
    carryBack ⟨0, carried cells e 0⟩ = ⟨0, carriedAll cells e⟩ := by
  ext i
  . simp
  . simp only [cells_carryBack, cells_carryRight, focus, carried, carriedAll]
    grind

end View

namespace Tape

def view (t : Tape) : View := ⟨t.position, t.cellAt⟩

@[simp]
theorem position_view (t : Tape) : t.view.position = t.position := rfl

@[simp]
theorem cells_view (t : Tape) : t.view.cells = t.cellAt := rfl

theorem focus_view (t : Tape) : t.view.focus = t.focus := by
  simp [View.focus, cellAt, cells, position]

theorem map_focus_view (ts : List Tape) : (ts.map view).map View.focus = ts.map focus := by
  rw [List.map_map]
  exact List.map_congr_left fun t _ => t.focus_view

theorem cellAt_position (t : Tape) : t.cellAt t.position = t.focus := t.focus_view

theorem cellAt_of_length_le {t : Tape} {i : Nat} (h : t.cells.length ≤ i) :
    t.cellAt i = .blank := by
  unfold cellAt
  rw [List.getD_eq_getElem?_getD, List.getElem?_eq_none h]
  rfl

theorem getD_append_blank (cells : List Cell) (i : Nat) :
    (cells ++ [Cell.blank]).getD i .blank = cells.getD i .blank := by
  simp only [List.getD_eq_getElem?_getD, List.getElem?_append]
  split
  . rfl
  . next h =>
    rw [List.getElem?_eq_none (Nat.le_of_not_lt h)]
    cases i - cells.length <;> rfl

theorem view_write (t : Tape) (c : Cell) : (t.write c).view = t.view.write c := by
  ext i
  . rfl
  . change (t.before.reverse ++ c :: t.after).getD i .blank
      = if i = t.before.length then c else (t.before.reverse ++ t.focus :: t.after).getD i .blank
    rcases Nat.lt_trichotomy i t.before.length with h | h | h
    . rw [if_neg (Nat.ne_of_lt h)]
      simp [List.getD_eq_getElem?_getD, List.getElem?_append, h]
    . rw [if_pos h, h]
      simp
    . rw [if_neg (Nat.ne_of_gt h)]
      obtain ⟨k, rfl⟩ := Nat.exists_eq_add_of_lt h
      have : t.before.length + k + 1 - t.before.length = k + 1 := by omega
      have hlt : ¬ t.before.length + k + 1 < t.before.length := by omega
      simp [List.getD_eq_getElem?_getD, List.getElem?_append, this, hlt]

@[simp]
theorem cellAt_stepRight (t : Tape) : t.stepRight.cellAt = t.cellAt := by
  funext i
  unfold stepRight cellAt
  split
  . next h =>
    have := getD_append_blank t.cells i
    simpa [cells, h] using this
  . next h => simp [cells, h]

@[simp]
theorem cellAt_pad (t : Tape) : t.pad.cellAt = t.cellAt := by
  funext i
  unfold pad cellAt
  split
  . next h =>
    have := getD_append_blank t.cells i
    simpa [cells, h] using this
  . rfl

@[simp]
theorem cellAt_goRight (n : Nat) (t : Tape) : (goRight n t).cellAt = t.cellAt := by
  induction n generalizing t with
  | zero => rfl
  | succ n ih => rw [goRight, ih, cellAt_stepRight]

@[simp]
theorem cellAt_goLeft (n : Nat) (t : Tape) : (goLeft n t).cellAt = t.cellAt := by
  induction n, t using goLeft.induct with
  | case1 => rfl
  | case2 => rfl
  | case3 n b before c after ih =>
    rw [goLeft, ih]
    funext i
    simp [cellAt, cells]

theorem view_move (t : Tape) (m : Move) : (t.move m).view = t.view.move m := by
  unfold move
  split
  . next h =>
    ext i
    . simp only [position_view, position_pad, position_goLeft, View.position_move, Move.distance]
      omega
    . simp
  . next h =>
    ext i
    . simp only [position_view, position_pad, position_goRight, View.position_move, Move.distance]
      omega
    . simp

theorem exists_isLast (t : Tape) : ∃ e, t.view.IsLast e := by
  apply @View.exists_isLast _ t.cells.length
  exact cellAt_of_length_le (by omega)

theorem view_seekBlank {t : Tape} {q : Nat} (hle : t.position ≤ q) (hblank : t.cellAt q = .blank)
    (hne : ∀ i, t.position ≤ i → i < q → t.cellAt i ≠ .blank) :
    t.seekBlank.view = ⟨q, t.cellAt⟩ := by
  have hq : q ≤ t.position + (t.after.length + 1) := by
    apply Nat.le_of_not_lt
    intro hlt
    apply hne (t.position + (t.after.length + 1)) (by omega) hlt
    apply cellAt_of_length_le
    simp [cells, position]
  unfold seekBlank
  -- The fuel bounds the distance to the empty cell in every turn.
  revert hq
  generalize t.after.length + 1 = n
  intro hq
  induction n generalizing t with
  | zero =>
    obtain rfl : q = t.position := by omega
    rfl
  | succ n ih =>
    rw [seekBlank.go]
    split
    . next hfocus =>
      have : q = t.position := by
        apply Nat.le_antisymm _ hle
        apply Nat.le_of_not_lt
        intro hlt
        exact hne t.position (Nat.le_refl _) hlt (by rw [cellAt_position, hfocus])
      rw [this]
      rfl
    . next hfocus =>
      have hneq : t.position ≠ q := by
        rintro rfl
        rw [cellAt_position] at hblank
        exact hfocus hblank
      have hview : (t.move .right).view = ⟨t.position + 1, t.cellAt⟩ := by
        rw [view_move]
        rfl
      have hposition : (t.move .right).position = t.position + 1 := congrArg View.position hview
      have hcells : (t.move .right).cellAt = t.cellAt := congrArg View.cells hview
      have := @ih (t.move .right) (by omega) (by rwa [hcells])
        (by intro i hi hi'; rw [hcells]; exact hne i (by omega) hi') (by omega)
      rwa [hcells] at this

theorem view_seekLastWritten {t : Tape} {e : Nat} (h : t.view.IsLast e) :
    t.seekLastWritten.view = ⟨e, t.cellAt⟩ := by
  obtain ⟨hle, hblank, hwritten⟩ := h
  have hview : (t.move .right).view = ⟨t.position + 1, t.cellAt⟩ := by
    rw [view_move]
    rfl
  have hposition : (t.move .right).position = t.position + 1 := congrArg View.position hview
  have hcells : (t.move .right).cellAt = t.cellAt := congrArg View.cells hview
  have hseek : (t.move .right).seekBlank.view = ⟨e + 1, t.cellAt⟩ := by
    rw [← hcells]
    apply view_seekBlank
    . rw [hposition]
      exact Nat.succ_le_succ hle
    . rwa [hcells]
    . intro i hi hi'
      rw [hcells]
      rw [hposition] at hi
      exact hwritten i hi (by omega)
  rw [seekLastWritten, view_move, hseek]
  ext i
  . simp only [View.position_move]
    omega
  . rfl

theorem view_carryRight (t : Tape) : t.carryRight.view = t.view.carryRight := by
  rw [carryRight, view_write, view_move, view_write, View.carryRight, focus_view]

theorem view_carryBack (t : Tape) : t.carryBack.view = t.view.carryBack := by
  rw [carryBack, view_move, view_carryRight, View.carryBack]

theorem carryUntil_found {t : Tape} {cells : Nat → Cell} {stop : Cell} {e m : Nat}
    (hview : t.view = ⟨e, cells⟩) (hblank : cells (e + 1) = .blank)
    (h : View.IsNearest cells stop e m) :
    ∃ t', t.carryUntil stop = (true, t') ∧ t'.view = ⟨m, View.carried cells e m⟩ := by
  obtain ⟨hle, heq, hne⟩ := h
  have hposition : t.position = e := congrArg View.position hview
  unfold carryUntil
  rw [hposition]
  -- The induction is on the position of the head, which comes down from `e` to `m`.
  have hgo (k : Nat) : ∀ t : Tape, m ≤ k → k ≤ e → t.view = ⟨k, View.carried cells e k⟩ →
      ∃ t', carryUntil.go stop k t = (true, t') ∧ t'.view = ⟨m, View.carried cells e m⟩ := by
    induction k with
    | zero =>
      intro t hmk hke hview
      obtain rfl : m = 0 := by omega
      have hfocus : t.focus = stop := by
        rw [← focus_view, hview, ← heq]
        rfl
      exact ⟨t, by rw [carryUntil.go, if_pos hfocus], hview⟩
    | succ k ih =>
      intro t hmk hke hview
      have hfocus : t.focus = cells (k + 1) := by
        rw [← focus_view, hview, View.focus_carried]
      by_cases hmk' : m = k + 1
      . have hfocus : t.focus = stop := by rw [hfocus, ← heq, hmk']
        subst hmk'
        exact ⟨t, by rw [carryUntil.go, if_pos hfocus], hview⟩
      . have hfocus : t.focus ≠ stop := by
          rw [hfocus]
          exact hne (k + 1) (by omega) hke
        rw [carryUntil.go, if_neg hfocus]
        apply ih t.carryBack (by omega) (by omega)
        rw [view_carryBack, hview, View.carryBack_carried cells (by omega)]
  exact hgo e t hle (Nat.le_refl e) (by rw [hview, View.carried_self hblank])

theorem carryUntil_missing {t : Tape} {cells : Nat → Cell} {stop : Cell} {e : Nat}
    (hview : t.view = ⟨e, cells⟩) (hblank : cells (e + 1) = .blank)
    (h : ∀ i ≤ e, cells i ≠ stop) :
    ∃ t', t.carryUntil stop = (false, t') ∧ t'.view = ⟨0, View.carriedAll cells e⟩ := by
  have hposition : t.position = e := congrArg View.position hview
  unfold carryUntil
  rw [hposition]
  have hgo (k : Nat) : ∀ t : Tape, k ≤ e → t.view = ⟨k, View.carried cells e k⟩ →
      ∃ t', carryUntil.go stop k t = (false, t') ∧ t'.view = ⟨0, View.carriedAll cells e⟩ := by
    induction k with
    | zero =>
      intro t hke hview
      have hfocus : t.focus ≠ stop := by
        rw [← focus_view, hview]
        exact h 0 hke
      refine ⟨t.carryBack, by rw [carryUntil.go, if_neg hfocus], ?_⟩
      rw [view_carryBack, hview, View.carryBack_carried_zero]
    | succ k ih =>
      intro t hke hview
      have hfocus : t.focus ≠ stop := by
        rw [← focus_view, hview, View.focus_carried]
        exact h (k + 1) hke
      rw [carryUntil.go, if_neg hfocus]
      apply ih t.carryBack (by omega)
      rw [view_carryBack, hview, View.carryBack_carried cells (by omega)]
  exact hgo e t (Nat.le_refl e) (by rw [hview, View.carried_self hblank])

end Tape

namespace Action

theorem view_write (c : Cell) (m : Move) (t : Tape) :
    ((write c m).apply t).view = (t.view.write c).move m := by
  rw [apply, Tape.view_move, Tape.view_write]

theorem view_preserve (m : Move) (t : Tape) : ((preserve m).apply t).view = t.view.move m := by
  rw [apply, Tape.view_move]

theorem view_shift (m : Move) (t : Tape) :
    ((shift m).apply t).view = t.view.carryRight.move m := by
  rw [apply, Tape.view_move, Tape.view_carryRight]

variable {t : Tape} {e : Nat} (he : t.view.IsLast e)

include he

theorem view_markFirst_found {marker : Cell} {m : Nat}
    (hm : View.IsNearest t.cellAt .blank e m) :
    ((markFirst marker).apply t).view
      =
    ((⟨m, View.carried t.cellAt e m⟩ : View).write marker).move .right := by
  obtain ⟨t', hcarry, hview⟩ := Tape.carryUntil_found (Tape.view_seekLastWritten he) he.blank hm
  rw [apply, hcarry, Tape.view_move, Tape.view_write, hview]

theorem view_markFirst_missing {marker : Cell} (hm : ∀ i ≤ e, t.cellAt i ≠ .blank) :
    ((markFirst marker).apply t).view
      =
    ((⟨0, View.carriedAll t.cellAt e⟩ : View).write marker).move .right := by
  obtain ⟨t', hcarry, hview⟩ := Tape.carryUntil_missing (Tape.view_seekLastWritten he) he.blank hm
  rw [apply, hcarry, Tape.view_move, Tape.view_write, hview]

theorem view_insertAfter_found {marker insert : Cell} {m : Nat}
    (hm : View.IsNearest t.cellAt marker e m) :
    ((insertAfter marker insert).apply t).view
      =
    (((⟨m, View.carried t.cellAt e m⟩ : View).move .right).write insert).move .right := by
  obtain ⟨t', hcarry, hview⟩ := Tape.carryUntil_found (Tape.view_seekLastWritten he) he.blank hm
  rw [apply, hcarry, Tape.view_move, Tape.view_write, Tape.view_move, hview]

theorem view_insertAfter_missing {marker insert : Cell} (hm : ∀ i ≤ e, t.cellAt i ≠ marker) :
    ((insertAfter marker insert).apply t).view = ⟨0, View.carriedAll t.cellAt e⟩ := by
  obtain ⟨t', hcarry, hview⟩ := Tape.carryUntil_missing (Tape.view_seekLastWritten he) he.blank hm
  rw [apply, hcarry]
  exact hview

omit he in
theorem view_apply_congr (a : Action) {t t' : Tape} (h : t.view = t'.view) :
    (a.apply t).view = (a.apply t').view := by
  have hcells : t.cellAt = t'.cellAt := congrArg View.cells h
  obtain ⟨e, he⟩ := t.exists_isLast
  have he' : t'.view.IsLast e := h ▸ he
  cases a with
  | write c m => rw [view_write, view_write, h]
  | preserve m => rw [view_preserve, view_preserve, h]
  | shift m => rw [view_shift, view_shift, h]
  | markFirst marker =>
    by_cases hm : ∃ i ≤ e, t.cellAt i = .blank
    . obtain ⟨i, hi, heq⟩ := hm
      obtain ⟨m, hm⟩ := View.exists_isNearest hi heq
      rw [view_markFirst_found he hm, view_markFirst_found he' (hcells ▸ hm), hcells]
    . have hm : ∀ i ≤ e, t.cellAt i ≠ .blank := fun i hi heq => hm ⟨i, hi, heq⟩
      rw [view_markFirst_missing he hm, view_markFirst_missing he' (hcells ▸ hm), hcells]
  | insertAfter marker insert =>
    by_cases hm : ∃ i ≤ e, t.cellAt i = marker
    . obtain ⟨i, hi, heq⟩ := hm
      obtain ⟨m, hm⟩ := View.exists_isNearest hi heq
      rw [view_insertAfter_found he hm, view_insertAfter_found he' (hcells ▸ hm), hcells]
    . have hm : ∀ i ≤ e, t.cellAt i ≠ marker := fun i hi heq => hm ⟨i, hi, heq⟩
      rw [view_insertAfter_missing he hm, view_insertAfter_missing he' (hcells ▸ hm), hcells]

end Action

end TuringLowering
