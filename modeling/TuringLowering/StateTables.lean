import TuringLowering.RuleTable.Basic

/-!
This module contains the states of a machine with their rules, in the order of creation.
-/

namespace TuringLowering

structure StateTables where
  entries : List (String × RuleTable) := []
deriving DecidableEq

namespace StateTables

def names (s : StateTables) : List String := s.entries.map Prod.fst

def size (s : StateTables) : Nat := s.entries.length

def find? (s : StateTables) (name : String) : Option RuleTable :=
  (s.entries.find? (·.1 = name)).map Prod.snd

def contains (s : StateTables) (name : String) : Bool := (s.find? name).isSome

def ensure (s : StateTables) (name : String) : StateTables :=
  if s.contains name then s else ⟨s.entries ++ [(name, .empty)]⟩

def set (s : StateTables) (name : String) (table : RuleTable) : StateTables :=
  ⟨s.entries.map fun e => if e.1 = name then (name, table) else e⟩

def lookup (s : StateTables) (name : String) (cell : Cell) : Option Outcome :=
  (s.find? name).bind (·.lookup cell)

def mapNames (f : String → String) (s : StateTables) : StateTables :=
  ⟨s.entries.map fun (name, table) => (f name, table.mapNames f)⟩

end StateTables

end TuringLowering
