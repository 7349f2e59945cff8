import Mathlib.Data.PFun
import TuringLowering.Proofs.Gaps
import TuringLowering.Tape.Snapshot

/-!
This module contains the tape as a list of cells with the index of the head, on which every access
may be out of bounds and every loop may go on without end. What does either has no result. What is
done to a tape that is split at its head is done in the same way, and always has a result, on its
cells and index.
-/

namespace TuringLowering

namespace Tape

/-- What can be done to a tape from outside. -/
inductive Edit where
  | load (input : List Cell)
  | restore (snapshot : Snapshot)
  | write (cell : Cell)
  | move (move : Move)
  | act (action : Action)
deriving DecidableEq

def edit (t : Tape) : Edit → Tape
  | .load input => ofInput input
  | .restore s => ofSnapshot s
  | .write c => t.write c
  | .move m => t.move m
  | .act a => a.apply t

/-- A new tape, with an input on it if there is one. -/
def opened : Option (List Cell) → Tape
  | none => blank
  | some input => ofInput input

end Tape

namespace Snapshot

def opened : Option (List Cell) → Snapshot
  | none => ⟨[.blank], 0⟩
  | some input => ⟨input ++ [.blank], 0⟩

/-- The cell under the head, if there is one. -/
def read (s : Snapshot) : Part Cell where
  Dom := s.head < s.cells.length
  get _ := s.cells[s.head]

def write (s : Snapshot) (c : Cell) : Part Snapshot where
  Dom := s.head < s.cells.length
  get _ := { s with cells := s.cells.set s.head c }

/-- Moves the head, but not beyond the first cell, and pads until a cell stands after the head. -/
def move (s : Snapshot) (m : Move) : Snapshot :=
  let head := (s.head + m.offset).toNat
  ⟨s.cells.rightpad (head + 2) .blank, head⟩

def clamped (s : Snapshot) : Snapshot :=
  let cells := if s.cells.isEmpty then [.blank] else s.cells
  ⟨cells, min s.head (cells.length - 1)⟩

def seekBlank : Snapshot →. Snapshot :=
  PFun.fix fun s => do
    let c ← s.read
    if c = .blank then return .inl s else return .inr (s.move .right)

def seekLastWritten (s : Snapshot) : Part Snapshot := do
  let s ← (s.move .right).seekBlank
  return s.move .left

/-- Carries a cell to the right. The flag is false when the head was on the first cell. -/
def carryBack (s : Snapshot) (paste : Cell) : Part (Bool × Snapshot) := do
  let s ← s.write .blank
  let s ← (s.move .right).write paste
  return (2 ≤ s.head, s.move (.leftBy 2))

def carryToBlank : Snapshot →. Snapshot :=
  PFun.fix fun s => do
    let c ← s.read
    if c = .blank then return .inl s
    else
      let r ← s.carryBack c
      return .inr r.2

def carryUntil (stop : Cell) : Snapshot →. Bool × Snapshot :=
  PFun.fix fun s => do
    let c ← s.read
    if c = stop then return .inl (true, s)
    else
      let r ← s.carryBack c
      if r.1 then return .inr r.2 else return .inl r

def perform (s : Snapshot) : Action → Part Snapshot
  | .write c m => do
    let s ← s.write c
    return s.move m
  | .preserve m => return s.move m
  | .shift m => do
    let c ← s.read
    let s ← s.write .blank
    let s ← (s.move .right).write c
    return s.move m
  | .markFirst marker => do
    let s ← s.seekLastWritten
    let s ← s.carryToBlank
    let s ← s.write marker
    return s.move .right
  | .insertAfter marker insert => do
    let s ← s.seekLastWritten
    let r ← carryUntil marker s
    if r.1 then
      let s ← (r.2.move .right).write insert
      return s.move .right
    else return r.2

def edit (s : Snapshot) : Tape.Edit → Part Snapshot
  | .load input => return ⟨input ++ [.blank], 0⟩
  | .restore s' => return s'.clamped
  | .write c => s.write c
  | .move m => return s.move m
  | .act a => s.perform a

end Snapshot

namespace Tape

@[simp]
theorem head_snapshot (t : Tape) : t.snapshot.head = t.position := rfl

theorem snapshot_opened (input : Option (List Cell)) : (opened input).snapshot = .opened input := by
  cases input with
  | none => rfl
  | some cells => cases cells <;> rfl

@[simp]
theorem read_snapshot (t : Tape) : t.snapshot.read = .some t.focus := by
  refine Part.eq_some_iff.mpr ⟨t.position_lt_length_cells, ?_⟩
  simp [Snapshot.read, snapshot, cells, position]

@[simp]
theorem write_snapshot (t : Tape) (c : Cell) : t.snapshot.write c = .some (t.write c).snapshot := by
  refine Part.eq_some_iff.mpr ⟨t.position_lt_length_cells, ?_⟩
  simp [Snapshot.write, snapshot, cells, position, Tape.write]

theorem rightpad_rightpad {m n : Nat} (h : m ≤ n) (cells : List Cell) :
    (cells.rightpad m .blank).rightpad n .blank = cells.rightpad n .blank := by
  simp only [List.rightpad, List.length_append, List.length_replicate, List.append_assoc,
    List.replicate_append_replicate]
  congr 2
  omega

theorem rightpad_of_le {n : Nat} {cells : List Cell} (h : n ≤ cells.length) :
    cells.rightpad n .blank = cells := by
  rw [List.rightpad, Nat.sub_eq_zero_of_le h, List.replicate_zero, List.append_nil]

theorem cells_pad (t : Tape) : t.pad.cells = t.cells.rightpad (t.position + 2) .blank := by
  unfold pad
  split
  . next h => simp [cells, position, List.rightpad, h]
  . next h =>
    rw [rightpad_of_le]
    simp [cells, position, h]

theorem cells_stepRight (t : Tape) :
    t.stepRight.cells = t.cells.rightpad (t.position + 2) .blank := by
  rw [← cells_pad]
  unfold stepRight pad
  split <;> simp [cells, *]

theorem cells_goRight (n : Nat) (t : Tape) :
    (goRight n t).cells = t.cells.rightpad (t.position + n + 1) .blank := by
  induction n generalizing t with
  | zero =>
    rw [goRight, rightpad_of_le]
    exact t.position_lt_length_cells
  | succ n ih =>
    rw [goRight, ih, cells_stepRight, position_stepRight, rightpad_rightpad (by omega)]
    congr 1
    omega

theorem cells_goLeft (n : Nat) (t : Tape) : (goLeft n t).cells = t.cells := by
  induction n, t using goLeft.induct with
  | case1 => rfl
  | case2 => rfl
  | case3 n b before c after ih =>
    rw [goLeft, ih]
    simp [cells]

@[simp]
theorem move_snapshot (t : Tape) (m : Move) : t.snapshot.move m = (t.move m).snapshot := by
  have hposition : (t.move m).position = (t.position + m.offset).toNat :=
    congrArg View.position (t.view_move m)
  have hcells : (t.move m).cells = t.cells.rightpad ((t.move m).position + 2) .blank := by
    unfold move
    split
    . rw [cells_pad, cells_goLeft, position_pad]
    . rw [cells_pad, cells_goRight, position_pad, position_goRight, rightpad_rightpad (by omega)]
  calc t.snapshot.move m
    _ = ⟨t.cells.rightpad ((t.position + m.offset).toNat + 2) .blank,
          (t.position + m.offset).toNat⟩ := rfl
    _ = (t.move m).snapshot := by rw [← hposition, ← hcells, snapshot]

theorem snapshot_ofSnapshot (s : Snapshot) : (ofSnapshot s).snapshot = s.clamped := by
  obtain ⟨cells, head⟩ := s
  cases cells with
  | nil => simp [ofSnapshot, Snapshot.clamped, snapshot, blank, Tape.cells, position]
  | cons c cs =>
    have hcells : (goRight (min head cs.length) ⟨[], c, cs⟩).cells = c :: cs := by
      rw [cells_goRight]
      apply rightpad_of_le
      simp only [Tape.cells, position, List.length_nil, List.length_cons, List.reverse_nil,
        List.nil_append]
      omega
    rw [ofSnapshot, snapshot, hcells, position_goRight]
    simp [Snapshot.clamped, position]

/-- A loop whose turns go along with those of one that ends has a result. -/
theorem fix_of_ends {β : Type} {stop : Tape → Prop} {turn : Tape → Tape}
    {loop : Snapshot →. β ⊕ Snapshot} (result : Tape → β)
    (hdone : ∀ t, stop t → loop t.snapshot = .some (.inl (result t)))
    (hturn : ∀ t, ¬ stop t → loop t.snapshot = .some (.inr (turn t).snapshot)) {t u : Tape}
    (h : Ends stop turn t u) : loop.fix t.snapshot = .some (result u) := by
  induction h with
  | done hstop => exact Part.eq_some_iff.mpr (PFun.fix_stop (Part.eq_some_iff.mp (hdone _ hstop)))
  | turn hgo _ ih => rw [PFun.fix_fwd_eq (Part.eq_some_iff.mp (hturn _ hgo)), ih]

theorem seekBlank_of_ends {t u : Tape} (h : Ends (·.focus = .blank) (·.move .right) t u) :
    t.snapshot.seekBlank = .some u.snapshot := by
  refine fix_of_ends snapshot (fun t hblank => ?_) (fun t hgo => ?_) h
  . simp [hblank]
  . simp [hgo]

@[simp]
theorem seekLastWritten_snapshot (t : Tape) :
    t.snapshot.seekLastWritten = .some t.seekLastWritten.snapshot := by
  obtain ⟨u, hends, heq⟩ := t.seekLastWritten_ends
  rw [Snapshot.seekLastWritten, move_snapshot, seekBlank_of_ends hends, heq]
  simp

@[simp]
theorem carryBack_snapshot (t : Tape) :
    t.snapshot.carryBack t.focus = .some (decide (0 < t.position), t.carryBack.snapshot) := by
  have hcarry : ((t.write .blank).move .right).write t.focus = t.carryRight := rfl
  have hhead : t.carryRight.position = t.position + 1 := congrArg View.position t.view_carryRight
  have hflag : decide (2 ≤ t.position + 1) = decide (0 < t.position) := by
    rw [decide_eq_decide]
    omega
  simp only [Snapshot.carryBack, write_snapshot, move_snapshot, Part.bind_eq_bind, Part.bind_some,
    hcarry, head_snapshot, hhead, hflag]
  rfl

theorem carryToBlank_of_ends {t u : Tape} (h : Ends (·.focus = .blank) carryBack t u) :
    t.snapshot.carryToBlank = .some u.snapshot := by
  refine fix_of_ends snapshot (fun t hblank => ?_) (fun t hgo => ?_) h
  . simp [hblank]
  . simp [hgo]

theorem carryUntil_of_ends {stop : Cell} {t u : Tape}
    (h : Ends (fun s => s.focus = stop ∨ s.position = 0) carryBack t u) :
    Snapshot.carryUntil stop t.snapshot
      =
    .some (if u.focus = stop then (true, u.snapshot) else (false, u.carryBack.snapshot)) := by
  let result : Tape → Bool × Snapshot := fun u =>
    if u.focus = stop then (true, u.snapshot) else (false, u.carryBack.snapshot)
  refine fix_of_ends result (fun t hstop => ?_) (fun t hgo => ?_) h
  . by_cases hfocus : t.focus = stop
    . simp [result, hfocus]
    . simp [result, hfocus, hstop.resolve_left hfocus]
  . rw [not_or] at hgo
    simp [hgo.1, Nat.pos_of_ne_zero hgo.2]

theorem perform_snapshot (t : Tape) (a : Action) : t.snapshot.perform a = .some (a.apply t).snapshot := by
  cases a with
  | write c m => simp [Snapshot.perform, Action.apply]
  | preserve m => simp [Snapshot.perform, Action.apply]
  | shift m => simp [Snapshot.perform, Action.apply, carryRight]
  | markFirst marker =>
    simp [Snapshot.perform, Action.apply, carryToBlank_of_ends (carryUntil_blank_ends _)]
  | insertAfter marker insert =>
    obtain ⟨u, hends, hcarry⟩ := t.seekLastWritten.carryUntil_ends marker
    simp only [Snapshot.perform, Action.apply, seekLastWritten_snapshot, Part.bind_eq_bind,
      Part.bind_some, carryUntil_of_ends hends, hcarry]
    by_cases hfound : u.focus = marker
    . simp [hfound]
    . simp [hfound]

theorem edit_snapshot (t : Tape) (e : Edit) : t.snapshot.edit e = .some (t.edit e).snapshot := by
  cases e with
  | load input => exact congrArg Part.some (snapshot_opened (some input)).symm
  | restore s => exact congrArg Part.some (snapshot_ofSnapshot s).symm
  | write c => exact t.write_snapshot c
  | move m => exact congrArg Part.some (t.move_snapshot m)
  | act a => exact t.perform_snapshot a

/-- On cells and index, no sequence of edits gets out of bounds or goes on without end. -/
theorem edits_snapshot (t : Tape) (edits : List Edit) :
    edits.foldlM Snapshot.edit t.snapshot = .some (edits.foldl edit t).snapshot := by
  induction edits generalizing t with
  | nil => rfl
  | cons e edits ih =>
    rw [List.foldlM_cons, edit_snapshot, List.foldl_cons, ← ih, Part.bind_eq_bind, Part.bind_some]

end Tape

end TuringLowering
