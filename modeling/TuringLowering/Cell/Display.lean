import TuringLowering.Cell.Basic
import TuringLowering.Text.Joined

/-!
This module contains the two written forms of a cell: the one of listings and messages, in which
reserved marks stand between braces, and the glyph drawn on a tape, where a head is an overline.
-/

namespace TuringLowering

namespace Mark

/-- A literal of at least three characters in braces could be taken for a reserved mark. -/
def looksReserved (text : String) : Bool :=
  3 ≤ text.length && text.toList.head? == some '\x7b' && text.toList.getLast? == some '\x7d'

def display (mark : Mark) (head : Bool) : String :=
  let tag := if head then "-" ++ braced "HEAD" else ""
  match mark with
  | .literal text => (if looksReserved text then "S:" else "") ++ text ++ tag
  | .empty => braced "e" ++ tag
  | .tapeStart => braced "^^" ++ tag
  | .boundLeft => braced "<" ++ tag
  | .boundRight => braced ">" ++ tag
  | .afterLast => braced "$$" ++ tag
  | .state name => "Q:" ++ braced name

/-- A head puts a combining overline on the characters that are drawn. -/
def glyph (mark : Mark) (head : Bool) : String :=
  let bar := if head then "̅" else ""
  match mark with
  | .literal text => text ++ bar
  | .empty => bar
  | .tapeStart => braced ("^" ++ bar ++ "^" ++ bar)
  | .boundLeft => braced ("<" ++ bar)
  | .boundRight => braced (">" ++ bar)
  | .afterLast => braced ("$" ++ bar ++ "$" ++ bar)
  | .state name => "Q:" ++ braced name

end Mark

namespace Cell

def displayJoint (parts : List String) : String := "<" ++ joined "," parts ++ ">"

def display : Cell → String := fold Mark.display fun parts _ => displayJoint parts

def glyph : Cell → String := fold Mark.glyph fun parts _ => displayJoint parts

def displayAll (cells : List Cell) : String := joined "," (cells.map display)

end Cell

end TuringLowering
