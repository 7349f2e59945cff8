import TuringLowering.Segment.Route

/-!
This module contains the requests from which a machine is drafted.
-/

namespace TuringLowering

/-- A transition on all tapes of a machine, with one writing and one movement for each tape. -/
structure JointTransition where
  origin : String
  read : JointPattern
  writes : List Writing
  moves : List Move
  next : String
deriving DecidableEq

inductive Request where
  | alphabets (input extra : List Cell)
  | features (features : List Feature)
  | state (name : String)
  | directive (directive : Directive)
  | tapes (count : Nat) (first : String)
  | joint (transition : JointTransition)
deriving DecidableEq

namespace Build

def checkUnsettled : Build Unit := do
  if !(← get).isUnsettled then
    throw .settled

def declareAlphabets (input extra : List Cell) : Build Unit := do
  checkUnsettled
  modify fun d => { d with alphabet := .declare input extra }

/-- Enables features one by one; those before a refused one stay enabled. -/
def enableFeatures (features : List Feature) : Build Unit := do
  checkUnsettled
  features.forM fun f => do
    let s ← ofExcept ((← get).features.enable f)
    modify fun d => { d with features := s }

/-- All names are read before the first feature is enabled. -/
def enableNamed (names : List String) : Build Unit := do
  enableFeatures (← ofExcept (names.mapM FeatureSet.featureNamed))

def claimSingleTape (call : Call) : Build Unit := do
  match (← get).tapes with
  | .undecided => modify fun d => { d with tapes := .single }
  | .single => pure ()
  | .multi _ => throw (.needsSingleTape call)

def userState (name : String) : Build Unit := do
  avoid name
  addState name

def userDirective : Directive → Build Unit
  | .transition origin read write move next => do
    claimSingleTape .transition
    avoid next
    avoid origin
    transition origin read write move next
  | .gadget origin read g next => do
    claimSingleTape .gadget
    avoid origin
    avoid next
    gadget origin read g next

/-- Prepares the shared tape of a machine whose tapes are simulated. -/
def simulateTapes (count : Nat) (first : String) : Build Unit := do
  modify fun d => { d with alphabet := d.alphabet.withSegments }
  addSymbol (.state first)
  Verdict.all.forM fun v => addSymbol (.state v.state)
  let d ← get
  directives (Segment.layout d.guard d.start first count d.alphabet.declared)
  addState (Segment.stepState d.guard)
  directives (Segment.growth d.guard d.alphabet)

/-- Begins to work on several tapes, in effect or by simulation. -/
def openTapes (count : Nat) (first : String) : Build Unit := do
  avoid first
  modify fun d => { d with tapes := .multi count }
  if ← enabled .multiTape then
    modify fun d => { d with start := first }
    addState first
  else
    simulateTapes count first

def setTapes (count : Nat) (first : String) : Build Unit := do
  if count ≤ 1 then
    throw (.tooFewTapes count)
  match (← get).tapes with
  | .single => throw .tapesAfterTransitions
  | .multi _ => throw .tapesAlreadySet
  | .undecided => openTapes count first

/-- Adds a joint transition; movements of more than one cell go through a state for the rest. -/
def jointTransition (t : JointTransition) : Build Unit :=
  go ((t.moves.map Move.distance).foldl max 0) t
where
  /-- At most `n` steps are split off. -/
  go : Nat → JointTransition → Build Unit
    | 0, t => direct t
    | n + 1, t => do
      let movesDirectly := (← enabled .moveMulti) && (← enabled .multiTape)
      if !movesDirectly && t.moves.any Move.isLong then
        let rest := t.moves.map Move.rest
        let remaining := joined "," (rest.map Move.display)
        let (state, isNew) ← chain ⟨.jointMove, [remaining, t.next]⟩ [remaining, t.next]
        if isNew then
          go n ⟨state, .any, t.writes.map fun _ => .keep, rest, t.next⟩
        direct { t with moves := t.moves.map Move.step, next := state }
      else
        direct t
  direct (t : JointTransition) : Build Unit := do
    if ← enabled .multiTape then
      joint t.origin t.read t.writes t.moves t.next
    else
      simulated t.origin t.read t.writes t.moves t.next

def checkArity (expected actual : Nat) (what : PerTape) : Build Unit :=
  if actual = expected then pure ()
  else throw (.wrongArity .joint expected actual what)

def checkArities (count : Nat) (t : JointTransition) : Build Unit := do
  if let .tapes patterns := t.read then
    checkArity count patterns.length .targets
  checkArity count t.writes.length .outputs
  checkArity count t.moves.length .movements

def userJoint (t : JointTransition) : Build Unit := do
  match (← get).tapes with
  | .multi count =>
    checkArities count t
    avoid t.origin
    avoid t.next
    jointTransition t
  | _ => throw (.needsTapeCount .joint)

def submit : Request → Build Unit
  | .alphabets input extra => declareAlphabets input extra
  | .features features => enableFeatures features
  | .state name => userState name
  | .directive d => userDirective d
  | .tapes count first => setTapes count first
  | .joint t => userJoint t

def submitAll (requests : List Request) : Build Unit := requests.forM submit

end Build

end TuringLowering
