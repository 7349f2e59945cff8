/-!
This module contains the ways in which listings and names put texts together.
-/

namespace TuringLowering

def joined (separator : String) : List String → String
  | [] => ""
  | [text] => text
  | text :: texts => text ++ separator ++ joined separator texts

def braced (text : String) : String := "\x7b" ++ text ++ "\x7d"

end TuringLowering
