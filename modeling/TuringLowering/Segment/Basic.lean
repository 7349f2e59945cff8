import TuringLowering.Tape.Basic

/-!
This module contains the segments by which several tapes share one. Each of them is the content of a
tape between two boundaries, where a tag shows the cell under its head.
-/

namespace TuringLowering.Segment

/-- A segment that is being read: its cells, last first, and the head. -/
structure Reading where
  cells : List Cell
  head : Nat

namespace Reading

def empty : Reading := ⟨[], 0⟩

def push (r : Reading) (c : Cell) : Reading :=
  ⟨c.bare :: r.cells, if c.head then r.cells.length else r.head⟩

/--
The segment as a tape. A tagged boundary stands for a head on a cell that is not there yet, and a
tape has at least one cell.
-/
def finish (r : Reading) (onBoundary : Bool) : Snapshot :=
  if onBoundary || r.cells.isEmpty then
    ⟨(.blank :: r.cells).reverse, r.cells.length⟩
  else
    ⟨r.cells.reverse, r.head⟩

end Reading

/-- The segments among some cells, in order; the first of them may be open already. -/
def scan : Option Reading → List Cell → List Snapshot
  | _, [] => []
  | _, .atom .boundLeft _ :: cs => scan (some .empty) cs
  | some r, .atom .boundRight h :: cs => r.finish h :: scan none cs
  | some r, c :: cs => scan (some (r.push c)) cs
  | none, _ :: cs => scan none cs

/-- The first `count` tapes on a shared tape; those not laid out yet are blank. -/
def decode (cells : List Cell) (count : Nat) : List Snapshot :=
  let tapes := (scan none cells).take count
  tapes ++ List.replicate (count - tapes.length) Tape.blank.snapshot

def tagAt (cells : List Cell) (head : Nat) : List Cell :=
  cells.zipIdx.map fun (c, i) => if i = head then c.tagged else c

/-- A tape as a segment; a head behind its last cell is put on the boundary. -/
def encode (s : Snapshot) : List Cell :=
  .boundLeft :: tagAt s.cells s.head ++ [.atom .boundRight (s.head == s.cells.length)]

end TuringLowering.Segment
