import TuringLowering.Cell.Basic

/-!
This module contains the symbols a machine may find on its tapes: those declared by its author, the
ones that simulated tapes need, and the names of states kept on the tape.
-/

namespace TuringLowering

structure Alphabet where
  /-- The declared symbols and the empty cell. -/
  declared : List Cell
  /-- All symbols, in the order in which they were added. -/
  symbols : List Cell
  /-- The declared symbols with a head on them, if tapes are simulated. -/
  heads : List Cell
  simulating : Bool
deriving DecidableEq

namespace Alphabet

def addNew (cells : List Cell) (c : Cell) : List Cell :=
  if c ∈ cells then cells else cells ++ [c]

def declare (input extra : List Cell) : Alphabet :=
  let declared := (input ++ extra ++ [Cell.blank]).foldl addNew []
  ⟨declared, declared, [], false⟩

def add (a : Alphabet) (c : Cell) : Alphabet := { a with symbols := addNew a.symbols c }

/-- Adds the tagged symbols and the markers that keep several tapes apart on one. -/
def withSegments (a : Alphabet) : Alphabet :=
  if a.simulating then a
  else
    let heads := a.declared.map Cell.tagged
    let markers : List Cell :=
      [.start, .boundLeft, .boundRight, .afterLast, Cell.boundRight.tagged]
    { a with
      symbols := (heads ++ markers).foldl addNew a.symbols
      heads
      simulating := true }

/-- A combination is accepted if all its parts are. -/
def accepts (a : Alphabet) : Cell → Bool :=
  Cell.fold (fun mark h => decide (Cell.atom mark h ∈ a.symbols)) fun parts _ => parts.all id

def mapNames (f : String → String) (a : Alphabet) : Alphabet :=
  { a with symbols := a.symbols.map (Cell.mapNames f) }

end Alphabet

end TuringLowering
