import TuringLowering.Error
import TuringLowering.Move

/-!
This module contains the set of features a machine is built with.
-/

namespace TuringLowering

structure FeatureSet where
  /-- Whether the feature was switched on, in effect or not. -/
  has : Feature → Bool

namespace FeatureSet

def none : FeatureSet := ⟨fun _ => false⟩

def all : FeatureSet := ⟨fun _ => true⟩

def toList (s : FeatureSet) : List Feature := Feature.all.filter s.has

def isEmpty (s : FeatureSet) : Bool := s.toList.isEmpty

def insert (s : FeatureSet) (f : Feature) : FeatureSet := ⟨fun g => g == f || s.has g⟩

/-- Switches a feature on; doing so twice is an error. -/
def enable (s : FeatureSet) (f : Feature) : Except RequestError FeatureSet :=
  if s.has f then .error (.featureTwice f) else .ok (s.insert f)

def featureNamed (name : String) : Except RequestError Feature :=
  match Feature.ofName? name with
  | some f => .ok f
  | Option.none => .error (.unknownFeature name)

def enableNamed (s : FeatureSet) (name : String) : Except RequestError FeatureSet := do
  s.enable (← featureNamed name)

def ofList (features : List Feature) : Except RequestError FeatureSet :=
  features.foldlM enable none

def ofNames (names : List String) : Except RequestError FeatureSet :=
  names.foldlM enableNamed none

/-- Whether a feature is in effect. Tapes of their own also need the head to be able to stay. -/
def enabled (s : FeatureSet) (f : Feature) : Bool :=
  if f = .multiTape then s.has .moveNone && s.has .multiTape else s.has f

def supports (s : FeatureSet) (m : Move) : Bool :=
  match m.distance with
  | 1 => true
  | 0 => s.enabled .moveNone
  | _ => s.enabled .moveMulti

def display (s : FeatureSet) : String :=
  if s.isEmpty then "(none)" else joined ", " (s.toList.map Feature.name)

@[simp]
theorem has_insert (s : FeatureSet) (f g : Feature) : (s.insert f).has g = (g == f || s.has g) :=
  rfl

theorem mem_toList (s : FeatureSet) (f : Feature) : f ∈ s.toList ↔ s.has f = true := by
  simp [toList, Feature.mem_all]

end FeatureSet

end TuringLowering
