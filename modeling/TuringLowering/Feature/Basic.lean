/-!
This module contains the catalogue of features: the abilities beyond exact rules and single steps
that a machine may use directly when they are enabled.
-/

namespace TuringLowering

inductive Feature where
  /-- One outcome for several symbols. -/
  | multiMatch
  /-- An outcome for several symbols that keeps the symbol read. -/
  | multiMatchNoChange
  /-- One outcome for all symbols that are not matched otherwise. -/
  | wildcard
  | moveNone
  | moveMulti
  | gadgetShift
  | gadgetFirstCellMarker
  | gadgetInsertAfterMarker
  /-- Tapes of their own for a machine with several tapes. -/
  | multiTape
deriving DecidableEq, Repr

namespace Feature

def all : List Feature :=
  [multiMatch, multiMatchNoChange, wildcard, moveNone, moveMulti, gadgetShift,
    gadgetFirstCellMarker, gadgetInsertAfterMarker, multiTape]

theorem mem_all (f : Feature) : f ∈ all := by cases f <;> decide

def shortName : Feature → String
  | multiMatch => "multimatch"
  | multiMatchNoChange => "multimatch-no-change"
  | wildcard => "wildcard"
  | moveNone => "move-none"
  | moveMulti => "move-multi"
  | gadgetShift => "gadget-shift"
  | gadgetFirstCellMarker => "gadget-first-cell-marker"
  | gadgetInsertAfterMarker => "gadget-insert-after-marker"
  | multiTape => "multi-tape"

def family : String := "feature-"

def name (f : Feature) : String := family ++ f.shortName

/-- Reads a canonical name, or one without the family in front. -/
def ofName? (text : String) : Option Feature :=
  let chars := text.toList
  let short :=
    if family.toList.isPrefixOf chars then chars.drop family.length else chars
  all.find? fun f => f.shortName.toList == short

end Feature

end TuringLowering
