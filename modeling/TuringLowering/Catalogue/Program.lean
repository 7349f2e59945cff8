import TuringLowering.Diagnosis
import TuringLowering.Draft.Request
import TuringLowering.Session

/-!
This module contains stored programs: a machine given by requests, with its alphabets and the features
it is compiled with unless others are asked for.
-/

namespace TuringLowering

structure Program where
  name : String
  description : String
  defaultFeatures : List Feature
  inputAlphabet : String
  extraAlphabet : String
  /-- An input the program accepts. -/
  sampleInput : String
  definition : List Request

namespace Program

def defaultFeatureSet (p : Program) : Except RequestError FeatureSet :=
  FeatureSet.ofList p.defaultFeatures

/-- All requests of the program, to be submitted to a new draft. -/
def requests (p : Program) (features : FeatureSet) : List Request :=
  .alphabets (Cell.ofText p.inputAlphabet) (Cell.ofText p.extraAlphabet)
    :: .features features.toList :: p.definition

def draft (p : Program) (features : FeatureSet) : Except RequestError Draft :=
  match (Build.submitAll (p.requests features)).run (.new Draft.defaultStart) with
  | .ok _ d => .ok d
  | .error e _ => .error e

def compile (p : Program) (features : FeatureSet) : Except RequestError Machine :=
  return (← p.draft features).compile

end Program

structure Summary where
  index : Nat
  name : String
  description : String
  features : FeatureSet
  tapeCount : Nat
  stateCount : Nat
  ruleCount : Nat

def Program.summary (p : Program) (index : Nat) : Except RequestError Summary := do
  let features ← p.defaultFeatureSet
  let machine ← p.compile features
  return {
    index, name := p.name, description := p.description, features
    tapeCount := machine.logicalTapes
    stateCount := machine.stateCount
    ruleCount := machine.ruleCount }

end TuringLowering
