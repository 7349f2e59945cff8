import TuringLowering.Cell.Display
import TuringLowering.Feature.Basic

/-!
This module contains the reasons for which a request is refused, and their wording.
-/

namespace TuringLowering

inductive RuleError where
  | afterWildcard (cell : Cell)
  | taken (cell : Cell)
  | foreignSymbol (cell : Cell)
  | secondWildcard
deriving DecidableEq

def RuleError.message : RuleError → String
  | .afterWildcard c =>
    "cannot define a transition on " ++ c.display ++ " after the wildcard was set"
  | .taken c => "transition on " ++ c.display ++ " is already defined"
  | .foreignSymbol c => c.display ++ " is not part of the tape alphabet"
  | .secondWildcard => "wildcard transition is already defined"

/-- The requests that fit only one kind of machine. -/
inductive Call where
  | transition
  | gadget
  | joint
deriving DecidableEq

def Call.name : Call → String
  | .transition => "add_transition"
  | .gadget => "add_gadget"
  | .joint => "add_multi_tape_transition"

/-- What a joint request gives once for each tape. -/
inductive PerTape where
  | targets
  | outputs
  | movements
deriving DecidableEq

def PerTape.name : PerTape → String
  | .targets => "targets"
  | .outputs => "outputs"
  | .movements => "movements"

inductive RequestError where
  | unknownFeature (name : String)
  | featureTwice (feature : Feature)
  /-- Features and alphabets are fixed once a state exists or the tapes are settled. -/
  | settled
  | unknownGadget (name : String)
  | rule (state : String) (cause : RuleError)
  | tooFewTapes (count : Nat)
  | tapesAlreadySet
  | tapesAfterTransitions
  | needsTapeCount (call : Call)
  | needsSingleTape (call : Call)
  | wrongArity (call : Call) (expected actual : Nat) (what : PerTape)
  | unknownProgram (key : String)
deriving DecidableEq

def RequestError.message : RequestError → String
  | .unknownFeature name => "Unknown feature: " ++ name
  | .featureTwice feature => "Feature already enabled: " ++ feature.name
  | .settled =>
    "Features and alphabets must be configured before any state is defined"
  | .unknownGadget name => "Unknown gadget: " ++ name
  | .rule state cause => "Transition from state " ++ state ++ ": " ++ cause.message
  | .tooFewTapes count => "Tape count must be greater than one, got " ++ toString count
  | .tapesAlreadySet => "Tape count can only be set once"
  | .tapesAfterTransitions =>
    "Tape count cannot be set after single-tape transitions were added"
  | .needsTapeCount call => call.name ++ " requires a tape count set with set_tape_count"
  | .needsSingleTape call => call.name ++ " cannot be used on a machine with multiple tapes"
  | .wrongArity call expected actual what =>
    call.name ++ " for " ++ toString expected ++ " tapes was given " ++ toString actual ++ " "
      ++ what.name
  | .unknownProgram key => "Program not found: " ++ key

end TuringLowering
