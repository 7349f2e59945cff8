import TuringLowering.Text.Blank
import TuringLowering.Text.Unsigned

/-!
This module contains the options of the command line and how they are read from its arguments.
-/

namespace TuringLowering.CommandLine

inductive Flag where
  | list
  | allFeatures
  | noFeatures
  | debug
  | transitions
  | json
deriving DecidableEq

inductive Setting where
  | program
  | features
  | maxSteps
deriving DecidableEq

inductive Item where
  | flag (flag : Flag)
  | setting (setting : Setting)
deriving DecidableEq

def Item.ofLong? : String → Option Item
  | "list" => some (.flag .list)
  | "all-features" => some (.flag .allFeatures)
  | "no-features" => some (.flag .noFeatures)
  | "debug" => some (.flag .debug)
  | "transitions" => some (.flag .transitions)
  | "json" => some (.flag .json)
  | "program" => some (.setting .program)
  | "features" => some (.setting .features)
  | "max-steps" => some (.setting .maxSteps)
  | _ => none

def Item.ofShort? : Char → Option Item
  | 'l' => some (.flag .list)
  | 'd' => some (.flag .debug)
  | 't' => some (.flag .transitions)
  | 'p' => some (.setting .program)
  | 'f' => some (.setting .features)
  | 'm' => some (.setting .maxSteps)
  | _ => none

structure Options where
  flags : List Flag := []
  program : Option String := none
  input : Option String := none
  /-- The names of the features asked for, if any. -/
  features : Option (List String) := none
  maxSteps : Option Nat := none

namespace Options

def has (o : Options) (f : Flag) : Bool := o.flags.contains f

/-- A flag must not be repeated. -/
def addFlag (o : Options) (f : Flag) : Option Options :=
  if o.has f then none else some { o with flags := f :: o.flags }

/-- Only features may be given several times; their names are separated by commas. -/
def addSetting (o : Options) (s : Setting) (value : String) : Option Options :=
  match s with
  | .program => if o.program.isSome then none else some { o with program := some value }
  | .features =>
    let names := (Blank.splitAt ',' value.toList).map String.ofList
    some { o with features := some (o.features.getD [] ++ names) }
  | .maxSteps =>
    if o.maxSteps.isSome then none
    else (Unsigned.read? value).map fun n => { o with maxSteps := some n }

def addInput (o : Options) (text : String) : Option Options :=
  if o.input.isSome then none else some { o with input := some text }

/-- Whether an argument is one or more options. A lone dash is not. -/
def isOption (arg : String) : Bool :=
  match arg.toList with
  | '-' :: _ :: _ => true
  | _ => false

/-- The flags after a single dash, up to a setting, which takes what follows as its value. -/
def addShort (o : Options) : List Char → Option (Options × Option (Setting × List Char))
  | [] => some (o, none)
  | c :: cs =>
    match Item.ofShort? c with
    | some (.flag f) => (o.addFlag f).bind (addShort · cs)
    | some (.setting s) => some (o, some (s, cs))
    | none => none

/-- An option after two dashes, cut at the first equals sign. -/
def cutLong (cs : List Char) : String × Option String :=
  (String.ofList (cs.takeWhile (· != '=')),
    match cs.dropWhile (· != '=') with
    | _ :: value => some (String.ofList value)
    | [] => none)

def readInputs (o : Options) : List String → Option Options
  | [] => some o
  | arg :: args => (o.addInput arg).bind (readInputs · args)

/-- Reads arguments; a setting that is still `pending` takes the next one as its value. -/
def readArgs (o : Options) (pending : Option Setting) : List String → Option Options
  | [] => if pending.isSome then none else some o
  | arg :: args =>
    match pending with
    | some s => if isOption arg then none else (o.addSetting s arg).bind (readArgs · none args)
    | none =>
      match arg.toList with
      | ['-', '-'] => readInputs o args
      | '-' :: '-' :: cs =>
        let (name, value) := cutLong cs
        match Item.ofLong? name, value with
        | some (.flag f), none => (o.addFlag f).bind (readArgs · none args)
        | some (.setting s), none => readArgs o (some s) args
        | some (.setting s), some value =>
          (o.addSetting s value).bind (readArgs · none args)
        | _, _ => none
      | '-' :: c :: cs =>
        match o.addShort (c :: cs) with
        | some (o, none) => readArgs o none args
        | some (o, some (s, [])) => readArgs o (some s) args
        | some (o, some (s, '=' :: value)) =>
          (o.addSetting s (String.ofList value)).bind (readArgs · none args)
        | some (o, some (s, value)) =>
          (o.addSetting s (String.ofList value)).bind (readArgs · none args)
        | none => none
      | _ => (o.addInput arg).bind (readArgs · none args)

/-- Features are chosen in one way only. -/
def isConsistent (o : Options) : Bool :=
  let choices := [o.features.isSome, o.has .allFeatures, o.has .noFeatures]
  (choices.filter id).length ≤ 1

def isEmpty (o : Options) : Bool :=
  o.flags.isEmpty && o.program.isNone && o.input.isNone && o.features.isNone
    && o.maxSteps.isNone

/-- The options given by arguments, if they make sense. Something has to be asked for. -/
def ofArgs? (args : List String) : Option Options :=
  (readArgs {} none args).filter fun o => o.isConsistent && !o.isEmpty

end Options

end TuringLowering.CommandLine
