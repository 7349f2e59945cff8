import TuringLowering.Catalogue.Search
import TuringLowering.CommandLine.Options
import TuringLowering.Document

/-!
This module contains what the command line answers: the list of stored programs, or the run of one of
them.
-/

namespace TuringLowering.CommandLine

structure Reply where
  exit : Nat
  stdout : String
  stderr : String

/-- The lines that tell of each configuration, the last one first. -/
structure Transcript where
  latest : List String := []

instance : Observer Transcript where
  attach _ t := t
  observe state tapes t :=
    let drawn := joined ", " (tapes.map fun tape => tape.snapshot.display)
    ⟨("State: " ++ state ++ ", Tapes: [" ++ drawn ++ "]") :: t.latest⟩

def ended (lines : List String) : String := String.join (lines.map (· ++ "\n"))

def spaces (n : Nat) : String := String.ofList (List.replicate n ' ')

def alignRight (width : Nat) (text : String) : String := spaces (width - text.length) ++ text

def alignLeft (width : Nat) (text : String) : String := text ++ spaces (width - text.length)

def listLine (s : Summary) : String :=
  alignRight 2 (toString s.index) ++ "  " ++ alignLeft 20 s.name ++ " " ++ s.description
    ++ " (tapes: " ++ toString s.tapeCount ++ ", features: " ++ s.features.display ++ ")"

def catalogueText : Except RequestError String := do
  let summaries ← (List.range Catalogue.programs.length).mapM Catalogue.summary
  return ended (summaries.map listLine)

namespace Options

def chooseFeatures (o : Options) (defaults : FeatureSet) : Except RequestError FeatureSet :=
  if o.has .allFeatures then .ok .all
  else if o.has .noFeatures then .ok .none
  else
    match o.features with
    | some names => FeatureSet.ofNames (names.map Blank.trim)
    | none => .ok defaults

/-- The input is the argument, else what was piped in, else the sample of the program. -/
def inputText (o : Options) (piped : Option String) (sample : String) : String :=
  match o.input, piped with
  | some text, _ => text
  | none, some text => Blank.chomp text
  | none, none => sample

def limit (o : Options) : Nat := o.maxSteps.getD Session.defaultLimit

/-- How the run ended, and the text on the tapes. -/
def report {ω : Type} (o : Options) (progress : Progress) (s : Session ω) : List String :=
  let headline :=
    match progress with
    | .halted v => "Machine halted: " ++ v.name
    | .running => "Stopped after " ++ toString o.limit ++ " steps."
  ["", headline, "State: " ++ s.state ++ ", Steps: " ++ toString s.steps, "", "Final tapes:"]
    ++ s.logicalTapes.map Snapshot.text

def runProgram (o : Options) (piped : Option String) : Except RequestError String := do
  let program ← Catalogue.get (o.program.getD "0")
  let features ← o.chooseFeatures (← program.defaultFeatureSet)
  let machine ← program.compile features
  let rules := if o.has .transitions then machine.listing ++ "\n" else ""
  let transcript := if o.has .debug then some { : Transcript } else none
  let history := if o.has .json then some { : History } else none
  let session := Session.new machine (transcript, history)
  let session := session.load (Cell.ofText (o.inputText piped program.sampleInput))
  let (progress, session) := session.run o.limit
  let (transcript, history) := session.observer
  let steps := ended ((transcript.map (·.latest.reverse)).getD [])
  let result :=
    match history with
    | some h => [(Document.array (h.records.map Record.document)).pretty 0]
    | none => o.report progress session
  return rules ++ steps ++ ended result

end Options

def usage : String :=
  "Usage: [OPTIONS] [INPUT]\n"

/-- Answers a command; `piped` is the text on the standard input unless that is a terminal. -/
def answer (args : List String) (piped : Option String) : Reply :=
  match Options.ofArgs? args with
  | none => ⟨2, "", usage⟩
  | some o =>
    match if o.has .list then catalogueText else o.runProgram piped with
    | .ok text => ⟨0, text, ""⟩
    | .error e => ⟨1, "", "Error: " ++ e.message ++ "\n"⟩

def readsInput (args : List String) : Bool :=
  match Options.ofArgs? args with
  | some o => !o.has .list && o.input.isNone
  | none => false

end TuringLowering.CommandLine
