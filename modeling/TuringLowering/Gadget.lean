import TuringLowering.Action
import TuringLowering.Error

/-!
This module contains the gadgets: tape operations that a request can name, each of them done in one
step by a machine that has the feature for it.
-/

namespace TuringLowering

inductive Gadget where
  | shift (andThen : Move)
  | markFirst (marker : Cell)
  | insertAfter (marker insert : Cell)
deriving DecidableEq

namespace Gadget

inductive Kind where
  | shift
  | markFirst
  | insertAfter
deriving DecidableEq

namespace Kind

def all : List Kind := [shift, markFirst, insertAfter]

def name : Kind → String
  | shift => "SHIFT"
  | markFirst => "FIRST-CELL-MARKER"
  | insertAfter => "INSERT-AFTER-MARKER"

def feature : Kind → Feature
  | shift => .gadgetShift
  | markFirst => .gadgetFirstCellMarker
  | insertAfter => .gadgetInsertAfterMarker

/-- Upper and lower case letters of a gadget's name are not told apart. -/
def ofName (text : String) : Except RequestError Kind :=
  match all.find? fun k => k.name.toList == text.toList.map Char.toUpper with
  | some k => .ok k
  | none => .error (.unknownGadget text)

end Kind

def kind : Gadget → Kind
  | .shift _ => .shift
  | .markFirst _ => .markFirst
  | .insertAfter _ _ => .insertAfter

def action : Gadget → Action
  | .shift m => .shift m
  | .markFirst marker => .markFirst marker
  | .insertAfter marker insert => .insertAfter marker insert

end Gadget

end TuringLowering
