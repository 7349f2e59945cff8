/-!
This module contains the guard, a run of one reserved character that wraps the names of generated
states, and the renaming that widens the guard inside names when an author's name contains it.
-/

namespace TuringLowering

structure Guard where
  /-- How many guard characters the guard consists of. -/
  size : Nat
  size_pos : 0 < size
deriving DecidableEq

namespace Guard

def mark : Char := 'Ω'

abbrev single : Guard := ⟨1, by decide⟩

def run (n : Nat) : List Char := List.replicate n mark

def text (g : Guard) : String := String.ofList (run g.size)

def longestRun (cs : List Char) : Nat := go 0 cs
where
  go (current : Nat) : List Char → Nat
    | [] => current
    | c :: cs => if c = mark then go (current + 1) cs else max current (go 0 cs)

def occursIn (g : Guard) (name : String) : Bool := g.size ≤ longestRun name.toList

def avoiding (name : String) : Guard := ⟨longestRun name.toList + 1, by omega⟩

/-- The length of a run of `n` after each full guard in it grew from `a` to `b` characters. -/
def widened (a b n : Nat) : Nat := n / a * b + n % a

/-- Widens each full guard, run by run. -/
def stretch (a b : Nat) (cs : List Char) : List Char := go 0 cs
where
  go (current : Nat) : List Char → List Char
    | [] => run (widened a b current)
    | c :: cs =>
      if c = mark then go (current + 1) cs
      else run (widened a b current) ++ c :: go 0 cs

/-- Replaces the old guard by the new one throughout a name. -/
def rename (old new : Guard) (name : String) : String :=
  String.ofList (stretch old.size new.size name.toList)

def wrap (g : Guard) (parts : List String) : String :=
  parts.foldl (fun name part => name ++ "_" ++ part ++ "_" ++ g.text) g.text

end Guard

end TuringLowering
