import TuringLowering.Cell.Display
import TuringLowering.Tape.Basic

/-!
This module contains the written forms of a snapshot: the text on the tape, and a drawing in which
the cell under the head stands in brackets.
-/

namespace TuringLowering.Snapshot

/-- The cells up to the last one that is not blank. -/
def trimmed (s : Snapshot) : List Cell :=
  (s.cells.reverse.dropWhile (· == .blank)).reverse

def text (s : Snapshot) : String :=
  String.join (s.trimmed.map fun c => if c.isEmpty then " " else c.glyph)

def display (s : Snapshot) : String :=
  String.join (s.cells.zipIdx.map fun (c, i) =>
    let glyph := if c = .blank then "_" else c.glyph
    if i = s.head then "[" ++ glyph ++ "]" else " " ++ glyph ++ " ")

end TuringLowering.Snapshot
