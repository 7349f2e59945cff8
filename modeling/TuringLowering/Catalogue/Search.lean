import TuringLowering.Catalogue.Entries
import TuringLowering.Text.Unsigned

/-!
This module contains the ways to find a stored program.
-/

namespace TuringLowering.Catalogue

def byIndex (index : Nat) : Except RequestError Program :=
  match programs[index]? with
  | some p => .ok p
  | none => .error (.unknownProgram ("index " ++ toString index))

def byName (name : String) : Except RequestError Program :=
  match programs.find? (·.name = name) with
  | some p => .ok p
  | none => .error (.unknownProgram name)

/-- A number is an index, anything else a name. -/
def get (key : String) : Except RequestError Program :=
  match Unsigned.read? key with
  | some index => byIndex index
  | none => byName key

def summary (index : Nat) : Except RequestError Summary := do
  (← byIndex index).summary index

/--
The catalogue is written in ASCII. Beyond it, the Kelvin sign is the only character whose lower case
is a single ASCII letter, so all others can be left as they are.
-/
def fold (text : String) : List Char :=
  text.toList.map fun c => if c = '\u212a' then 'k' else c.toLower

def occurs (query : List Char) : List Char → Bool
  | [] => query.isEmpty
  | c :: cs => query.isPrefixOf (c :: cs) || occurs query cs

/-- The indices of the programs in whose name or description a text occurs, in any case. -/
def search (query : String) : List Nat :=
  let query := fold query
  (programs.zipIdx.filter fun (p, _) =>
    occurs query (fold p.name) || occurs query (fold p.description)).map Prod.snd

end TuringLowering.Catalogue
