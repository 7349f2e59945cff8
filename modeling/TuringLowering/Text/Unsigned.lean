/-!
This module contains the reading of an unsigned number that fits a word of 64 bits.
-/

namespace TuringLowering.Unsigned

def bound : Nat := 0x10000000000000000

def digit? (c : Char) : Option Nat :=
  if '0' ≤ c ∧ c ≤ '9' then some (c.toNat - '0'.toNat) else none

/-- Reads decimal digits and nothing else; `value` stands for those before. -/
def digits (value : Nat) : List Char → Option Nat
  | [] => some value
  | c :: cs =>
    match digit? c with
    | some d => digits (10 * value + d) cs
    | none => none

/-- A plus sign may stand in front. -/
def read? (text : String) : Option Nat :=
  let cs :=
    match text.toList with
    | '+' :: cs => cs
    | cs => cs
  match cs with
  | [] => none
  | cs => (digits 0 cs).filter (· < bound)

end TuringLowering.Unsigned
