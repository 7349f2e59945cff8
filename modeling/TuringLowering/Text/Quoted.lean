import TuringLowering.Text.Joined
import TuringLowering.Text.Unprintable

/-!
This module contains the written form of lists of names: each name in double quotes, with escapes for
the quote, the backslash and everything that cannot be seen.
-/

namespace TuringLowering.Quoted

def hex (n : Nat) : String := String.ofList (Nat.toDigits 16 n)

def escape (c : Char) : String :=
  match c with
  | '\x00' => "\\0"
  | '\t' => "\\t"
  | '\r' => "\\r"
  | '\n' => "\\n"
  | '"' => "\\\""
  | '\\' => "\\\\"
  | c => if Unprintable.contains c then "\\u" ++ braced (hex c.toNat) else String.singleton c

def quote (text : String) : String := "\"" ++ String.join (text.toList.map escape) ++ "\""

def list (texts : List String) : String := "[" ++ joined ", " (texts.map quote) ++ "]"

end TuringLowering.Quoted
