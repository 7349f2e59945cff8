import TuringLowering.Cell.Basic
import TuringLowering.Move

/-!
This module contains the tape. It begins at a first cell, which the head cannot leave to the left,
and grows to the right with empty cells. Splitting it at the head keeps the head inside the tape.
-/

namespace TuringLowering

structure Tape where
  /-- The cells before the head, nearest first. -/
  before : List Cell
  focus : Cell
  after : List Cell
deriving DecidableEq

structure Snapshot where
  cells : List Cell
  head : Nat
deriving DecidableEq

namespace Tape

def blank : Tape := ⟨[], .blank, []⟩

/-- A tape that holds an input and one empty cell after it, with the head on its first cell. -/
def ofInput : List Cell → Tape
  | [] => blank
  | c :: cs => ⟨[], c, cs ++ [.blank]⟩

def position (t : Tape) : Nat := t.before.length

def cells (t : Tape) : List Cell := t.before.reverse ++ t.focus :: t.after

/-- The cells of the tape, padded with empty cells without end. -/
def cellAt (t : Tape) (i : Nat) : Cell := t.cells.getD i .blank

def write (t : Tape) (c : Cell) : Tape := { t with focus := c }

def stepRight (t : Tape) : Tape :=
  match t.after with
  | [] => ⟨t.focus :: t.before, .blank, []⟩
  | c :: cs => ⟨t.focus :: t.before, c, cs⟩

def goRight : Nat → Tape → Tape
  | 0, t => t
  | n + 1, t => goRight n t.stepRight

/-- Stops at the first cell. -/
def goLeft : Nat → Tape → Tape
  | 0, t => t
  | _ + 1, ⟨[], c, after⟩ => ⟨[], c, after⟩
  | n + 1, ⟨b :: before, c, after⟩ => goLeft n ⟨before, b, c :: after⟩

def pad (t : Tape) : Tape :=
  match t.after with
  | [] => { t with after := [.blank] }
  | _ :: _ => t

def move (t : Tape) (m : Move) : Tape :=
  if m.offset < 0 then (goLeft m.distance t).pad else (goRight m.distance t).pad

def snapshot (t : Tape) : Snapshot := ⟨t.cells, t.position⟩

/-- The tape a snapshot was taken of. A head beyond the end is put on the last cell. -/
def ofSnapshot (s : Snapshot) : Tape :=
  match s.cells with
  | [] => blank
  | c :: cs => goRight (min s.head cs.length) ⟨[], c, cs⟩

@[simp]
theorem position_write (t : Tape) (c : Cell) : (t.write c).position = t.position := rfl

@[simp]
theorem position_pad (t : Tape) : t.pad.position = t.position := by
  unfold pad; split <;> rfl

@[simp]
theorem position_stepRight (t : Tape) : t.stepRight.position = t.position + 1 := by
  unfold stepRight; split <;> rfl

@[simp]
theorem position_goRight (n : Nat) (t : Tape) : (goRight n t).position = t.position + n := by
  induction n generalizing t with
  | zero => rfl
  | succ n ih => rw [goRight, ih, position_stepRight]; omega

@[simp]
theorem position_goLeft (n : Nat) (t : Tape) : (goLeft n t).position = t.position - n := by
  induction n, t using goLeft.induct with
  | case1 => simp [goLeft]
  | case2 => simp [goLeft, position]
  | case3 n b before c after ih => rw [goLeft, ih]; simp [position]

theorem position_lt_length_cells (t : Tape) : t.position < t.cells.length := by
  simp [position, cells]

end Tape

end TuringLowering
