import TuringLowering.Feature.Set
import TuringLowering.Guard
import TuringLowering.StateTables

/-!
This module contains the draft of a machine, to which requests add states and rules. A request that
is refused halfway leaves in the draft what it has added so far.
-/

namespace TuringLowering

/-- The families of generated states that several requests can share. -/
inductive ChainKind where
  /-- Finishes a movement. -/
  | continuation
  /-- Writes the symbol that was carried. -/
  | paste
  | markFirst
  | insertAfter
  /-- Finishes the movements of several tapes. -/
  | jointMove
deriving DecidableEq

/-- What two requests have to agree on, in its written form, to share a generated state. -/
structure ChainKey where
  kind : ChainKind
  parts : List String
deriving DecidableEq

def ChainKey.mapNames (f : String → String) (k : ChainKey) : ChainKey :=
  { k with parts := k.parts.map f }

inductive TapeUse where
  | undecided
  | single
  | multi (count : Nat)
deriving DecidableEq

def TapeUse.count : TapeUse → Nat
  | .multi count => count
  | _ => 1

structure Draft where
  start : String
  features : FeatureSet := .none
  alphabet : Alphabet := .declare [] []
  states : StateTables := {}
  guard : Guard := .single
  /-- The generated states that can be shared, each with the key it was made for. -/
  chains : List (ChainKey × String) := []
  tapes : TapeUse := .undecided

/-- An operation on a draft that may be refused; the draft is kept in either case. -/
abbrev Build := EStateM RequestError Draft

namespace Draft

/-- The state a machine starts in unless its author names another one. -/
def defaultStart : String := "qstart"

def new (start : String) : Draft := { start }

def mapNames (f : String → String) (d : Draft) : Draft :=
  { d with
    start := f d.start
    alphabet := d.alphabet.mapNames f
    states := d.states.mapNames f
    chains := d.chains.map fun (key, name) => (key.mapNames f, f name) }

def withGuard (d : Draft) (guard : Guard) : Draft :=
  { d.mapNames (d.guard.rename guard) with guard }

/-- Widens the guard if an author's name contains it. -/
def avoid (d : Draft) (name : String) : Draft :=
  if d.guard.occursIn name then d.withGuard (.avoiding name) else d

/-- Whether features and alphabets may still be chosen. -/
def isUnsettled (d : Draft) : Bool := d.states.entries.isEmpty && d.tapes == .undecided

def uncovered (d : Draft) (state : String) : List Cell :=
  match d.states.find? state with
  | some table => table.uncovered d.alphabet.symbols
  | none => d.alphabet.symbols

end Draft

namespace Build

def ofExcept {α : Type} : Except RequestError α → Build α
  | .ok a => pure a
  | .error e => throw e

def enabled (f : Feature) : Build Bool := return (← get).features.enabled f

def avoid (name : String) : Build Unit := modify (·.avoid name)

def addState (name : String) : Build Unit :=
  modify fun d => { d with states := d.states.ensure name }

def addSymbol (c : Cell) : Build Unit :=
  modify fun d => { d with alphabet := d.alphabet.add c }

/-- Adds a rule to a state, which is created if needed. -/
def addRule (state : String) (add : Alphabet → RuleTable → Except RuleError RuleTable) :
    Build Unit := do
  addState state
  let d ← get
  match add d.alphabet ((d.states.find? state).getD .empty) with
  | .ok table => set { d with states := d.states.set state table }
  | .error cause => throw (.rule state cause)

/-- Adds rules for several symbols: one group, or an exact rule for each of them. -/
def addRules (state : String) (cells : List Cell) (grouped : Bool) (shared : Outcome)
    (each : Cell → Outcome) (source : Option JointPattern) : Build Unit :=
  if grouped then
    if cells.isEmpty then addState state
    else addRule state (RuleTable.addGroup ⟨cells, shared, source⟩)
  else
    cells.forM fun c => addRule state (RuleTable.addExact c (each c))

/--
The state generated for a key, and whether it is new. A new one is named after `parts`, each of
them between two guards.
-/
def chain (key : ChainKey) (parts : List String) : Build (String × Bool) := do
  let d ← get
  match d.chains.find? (·.1 = key) with
  | some (_, name) => return (name, false)
  | none =>
    let name := d.guard.wrap parts
    set { d with chains := d.chains ++ [(key, name)] }
    return (name, true)

end Build

end TuringLowering
