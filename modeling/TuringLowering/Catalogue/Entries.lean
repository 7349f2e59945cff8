import TuringLowering.Catalogue.Program

/-!
This module contains the stored programs.
-/

namespace TuringLowering.Catalogue

open Verdict (accept reject)

def single (state : String) (directives : List (String → Directive)) : List Request :=
  .state state :: directives.map fun d => .directive (d state)

def several (state : String) (transitions : List (String → JointTransition)) : List Request :=
  .state state :: transitions.map fun t => .joint (t state)

def rule (read : Pattern) (write : Writing) (move : Move) (next origin : String) : Directive :=
  .transition origin read write move next

def gadget (read : Pattern) (g : Gadget) (next origin : String) : Directive :=
  .gadget origin read g next

def jointRule (read : JointPattern) (writes : List Writing) (moves : List Move)
    (next origin : String) : JointTransition :=
  { origin, read, writes, moves, next }

def char (c : Char) : Pattern := .cell (.ofChar c)

def blank : Pattern := .cell .blank

def put (c : Char) : Writing := .put (.ofChar c)

def erase : Writing := .put .blank

def replaceOdd : Program where
  name := "replace-odd"
  description := "Replace odd digits with `1`s"
  defaultFeatures := [.multiMatch, .multiMatchNoChange]
  inputAlphabet := "0123456789"
  extraAlphabet := ""
  sampleInput := "1234567"
  definition := single "qstart" [
    rule blank erase .right accept.state,
    rule (.ofText "13579") (put '1') .right "qstart",
    rule (.ofText "02468") .keep .right "qstart"]

def replaceLetters : Program where
  name := "replace-letters"
  description := "Replace letters after the first period"
  defaultFeatures := [.multiMatch, .multiMatchNoChange, .wildcard]
  inputAlphabet := "abcdefghijklmnopqrstuvwxyz."
  extraAlphabet := ""
  sampleInput := "keep.these"
  definition :=
    single "qstart" [
      rule (char '.') (put '.') .right "qreplacing",
      rule blank erase .right reject.state,
      rule .any .keep .right "qstart"]
    ++ single "qreplacing" [
      rule blank erase .right accept.state,
      rule .any (put '.') .right "qreplacing"]

def findZero : Program where
  name := "find-zero"
  description := "End on the first `0`"
  defaultFeatures := [.multiMatch, .multiMatchNoChange, .wildcard, .moveNone]
  inputAlphabet := "abcdefghijklmnopqrstuvwxyz0"
  extraAlphabet := ""
  sampleInput := "abc0def"
  definition := single "qstart" [
    rule (char '0') (put '0') .stay accept.state,
    rule blank erase .right reject.state,
    rule .any .keep .right "qstart"]

/-- The last symbol is carried first. -/
def shiftRight : Program where
  name := "shift-right"
  description := "Shift the input one cell to the right"
  defaultFeatures := [.multiMatch, .multiMatchNoChange, .moveMulti, .gadgetShift]
  inputAlphabet := "abc"
  extraAlphabet := ""
  sampleInput := "abcab"
  definition :=
    single "qstart" [
      rule (.ofText "abc") .keep .right "qstart",
      rule blank erase .left "qshift"]
    ++ single "qshift" [
      gadget (.ofText "abc") (.shift (.leftBy 2)) "qshift",
      rule blank erase .right accept.state]

def markFirstCell : Program where
  name := "mark-first-cell"
  description := "Put a `#` in front of the input"
  defaultFeatures := [.multiMatch, .gadgetFirstCellMarker]
  inputAlphabet := "abc"
  extraAlphabet := "#"
  sampleInput := "cab"
  definition := single "qstart" [
    gadget (.ofText "abc") (.markFirst (.ofChar '#')) accept.state,
    rule blank (put '#') .right accept.state]

def insertAfterMarker : Program where
  name := "insert-after-marker"
  description := "Insert a `+` after the `#` marker"
  defaultFeatures := [.multiMatch, .multiMatchNoChange, .gadgetInsertAfterMarker]
  inputAlphabet := "ab#"
  extraAlphabet := "+"
  sampleInput := "ab#ba"
  definition :=
    single "qstart" [
      rule (char '#') .keep .right "qinsert",
      rule (.ofText "ab") .keep .right "qstart",
      rule blank erase .right reject.state]
    ++ single "qinsert" [
      gadget (.ofText "ab#") (.insertAfter (.ofChar '#') (.ofChar '+')) accept.state,
      rule blank (put '+') .right accept.state]

/-- The input is copied behind a `$` on the second tape, then both are read in opposite directions. -/
def palindrome : Program where
  name := "palindrome"
  description := "Accept palindromes over `a` and `b` using two tapes"
  defaultFeatures := [.multiMatch, .multiMatchNoChange, .wildcard, .moveNone, .multiTape]
  inputAlphabet := "ab"
  extraAlphabet := "$"
  sampleInput := "abba"
  definition :=
    let anything : Pattern := .oneOf [.ofChar 'a', .ofChar 'b', .blank]
    let keep : List Writing := [.keep, .keep]
    .tapes 2 "qmark" ::
    several "qmark" [
      jointRule (.tapes [anything, blank]) [.keep, put '$'] [.stay, .right] "qcopy"]
    ++ several "qcopy" [
      jointRule (.tapes [char 'a', blank]) [.keep, put 'a'] [.right, .right] "qcopy",
      jointRule (.tapes [char 'b', blank]) [.keep, put 'b'] [.right, .right] "qcopy",
      jointRule (.tapes [blank, blank]) keep [.left, .left] "qrewind"]
    ++ several "qrewind" [
      jointRule (.tapes [anything, .ofText "ab"]) keep [.stay, .left] "qrewind",
      jointRule (.tapes [anything, char '$']) keep [.stay, .right] "qcompare"]
    ++ several "qcompare" [
      jointRule (.tapes [char 'a', char 'a']) keep [.left, .right] "qcompare",
      jointRule (.tapes [char 'b', char 'b']) keep [.left, .right] "qcompare",
      jointRule (.tapes [anything, blank]) keep [.stay, .stay] accept.state,
      jointRule .any keep [.stay, .stay] reject.state]

def programs : List Program :=
  [replaceOdd, replaceLetters, findZero, shiftRight, markFirstCell, insertAfterMarker, palindrome]

end TuringLowering.Catalogue
