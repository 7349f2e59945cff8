import TuringLowering.Draft.Transition

/-!
This module contains the transitions of a machine with several tapes of its own, whose rules read the
combination of the cells under all heads.
-/

namespace TuringLowering

/-- All ways to pick one cell from each list; the choice from the first list varies slowest. -/
def combinations : List (List Cell) → List (List Cell)
  | [] => [[]]
  | options :: rest => options.flatMap fun c => (combinations rest).map (c :: ·)

namespace Pattern

/-- The cells of patterns that stand for one cell each. -/
def exactCells? (patterns : List Pattern) : Option (List Cell) :=
  patterns.mapM fun
    | .cell c => some c
    | _ => none

end Pattern

namespace Build

def jointForCells (origin : String) (reads : List (List Cell)) (writes : List Writing)
    (moves : List Move) (next : String) (source : JointPattern) : Build Unit := do
  let grouped := (← get).features.groups (writes.contains .keep)
  addRules origin (reads.map .joint) grouped
    ⟨List.zipWith Writing.action writes moves, next⟩
    (fun read =>
      ⟨List.zipWith Action.write (Writing.ontoAll writes read.components) moves, next⟩)
    (some source)

def jointPerTape (origin : String) (patterns : List Pattern) (writes : List Writing)
    (moves : List Move) (next : String) : Build Unit := do
  match Pattern.exactCells? patterns with
  | some cells =>
    addRule origin (RuleTable.addExact (.joint cells)
      ⟨List.zipWith Writing.action writes moves, next⟩)
  | none =>
    let d ← get
    let reads := combinations (patterns.map (Pattern.cells d.alphabet.symbols))
    let reads :=
      if patterns.contains .any then
        reads.filter fun read => (d.states.lookup origin (.joint read)).isNone
      else
        reads
    jointForCells origin reads writes moves next (.tapes patterns)

/-- Adds a transition that reads all tapes at once, with movements that can be a single rule. -/
def joint (origin : String) (read : JointPattern) (writes : List Writing) (moves : List Move)
    (next : String) : Build Unit := do
  if read = .any ∧ (← enabled .wildcard) then
    addRule origin fun _ =>
      RuleTable.addWildcard ⟨List.zipWith Writing.action writes moves, next⟩
  else
    jointPerTape origin (read.perTape writes.length) writes moves next

end Build

end TuringLowering
