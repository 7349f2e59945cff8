import TuringLowering.Draft.Joint
import TuringLowering.Segment.Layout

/-!
This module contains the simulation of one step: the heads are found from left to right, the actions
are done from right to left, and the next state is recorded before the segments are checked.
-/

namespace TuringLowering

/-- A transition of a simulated machine for one combination of cells. -/
structure Route where
  guard : Guard
  origin : String
  reads : List Cell
  writes : List Cell
  moves : List Move
  next : String

namespace Route

def searchRoot (r : Route) : String := r.guard.text ++ "s_" ++ r.origin ++ r.guard.text

def applyRoot (r : Route) : String := r.guard.text ++ "a_" ++ r.next ++ r.guard.text

def guarded (g : Guard) (texts : List String) : String :=
  String.join (texts.map fun text => "_" ++ g.text ++ text ++ g.text)

def actionTexts (r : Route) : List String :=
  List.zipWith (fun (c : Cell) (m : Move) => c.display ++ "," ++ m.display) r.writes r.moves

/--
The state that does what is left to do on the first `n` tapes. Routes to the same state share it if
they agree on that.
-/
def applyState (r : Route) : Nat → String
  | 0 => r.applyRoot
  | n + 1 => r.applyRoot ++ "_p" ++ guarded r.guard (r.actionTexts.take (n + 1))

def tagState (r : Route) (n : Nat) : String := r.applyState n ++ "-markHead"

/--
The state that looks for the head of a tape when those of the first `n` are found. Routes from the
same state share it if they agree on the cells found.
-/
def findState (r : Route) : Nat → String
  | 0 => r.searchRoot
  | n + 1 =>
    if n + 1 = r.reads.length then r.applyState (n + 1)
    else r.searchRoot ++ "_f" ++ guarded r.guard ((r.reads.map Cell.display).take (n + 1))

def isKnown (r : Route) (d : Draft) : Bool :=
  match r.reads.getLast? with
  | some c => (d.states.lookup (r.findState (r.reads.length - 1)) c.tagged).isSome
  | none => false

def between (alphabet : Alphabet) : Pattern :=
  .oneOf (alphabet.declared ++ [.boundLeft, .boundRight])

/-- Begins a step in the state of the route, and takes it up after the segments were checked. -/
def entry (r : Route) : List Directive :=
  let name := Cell.state r.origin
  [ .replace (Segment.stepState r.guard) name .blank .right (r.findState 0),
    .replace (Segment.growPart r.guard "done") name name .stay (Segment.stepState r.guard) ]

def action (r : Route) (alphabet : Alphabet) (n : Nat) (write : Cell) (move : Move) :
    List Directive :=
  let apply := r.applyState n
  let tag := r.tagState n
  let done := r.applyState (n - 1)
  [ .pass apply (between alphabet) .left apply,
    .transition apply (.oneOf alphabet.heads) (.put write) move tag,
    -- A head that left its segment to the left goes back to the first cell.
    .replace tag .boundLeft .boundLeft .right tag,
    .replace tag .boundRight Cell.boundRight.tagged .left done ]
  ++ alphabet.declared.map fun c => .replace tag c c.tagged .left done

def record (r : Route) (alphabet : Alphabet) : List Directive :=
  let back := r.applyState 0
  let doRecord := back ++ "-doRecord"
  [ .pass back (.oneOf alphabet.declared) .left back,
    .replace back .boundLeft .boundLeft .left doRecord,
    .replace doRecord .blank (.state r.next) .right (Segment.growState r.guard) ]

end Route

namespace Build

def hasState (name : String) : Build Bool := return (← get).states.contains name

def hasRule (state : String) (c : Cell) : Build Bool :=
  return ((← get).states.lookup state c).isSome

/-- Adds what the search for the cells of a route does not share with earlier ones. -/
def findHeads (r : Route) : Build Unit := do
  let alphabet := (← get).alphabet
  r.reads.zipIdx.forM fun (c, n) => do
    let find := r.findState n
    if !(← hasState find) then
      directive (.pass find (Route.between alphabet) .right find)
    let isLast := n + 1 == r.reads.length
    if isLast || !(← hasRule find c.tagged) then
      directive (.replace find c.tagged c.tagged .right (r.findState (n + 1)))

def applyActions (r : Route) : Build Unit := do
  let alphabet := (← get).alphabet
  (r.writes.zip r.moves).zipIdx.reverse.forM fun ((write, move), n) => do
    if !(← hasState (r.applyState (n + 1))) then
      directives (r.action alphabet (n + 1) write move)

def route (r : Route) : Build Unit := do
  if !(← hasRule (Segment.stepState r.guard) (.state r.origin)) then
    addSymbol (.state r.origin)
    directives r.entry
  findHeads r
  applyActions r
  if !(← hasState (r.applyState 0)) then
    directives (r.record (← get).alphabet)

def simulated (origin : String) (read : JointPattern) (writes : List Writing)
    (moves : List Move) (next : String) : Build Unit := do
  let d ← get
  let patterns := read.perTape writes.length
  let reads := combinations (patterns.map (Pattern.cells d.alphabet.declared))
  let routes : List Route := reads.map fun reads =>
    ⟨d.guard, origin, reads, Writing.ontoAll writes reads, moves, next⟩
  let routes := if patterns.contains .any then routes.filter (!·.isKnown d) else routes
  routes.forM route

end Build

end TuringLowering
