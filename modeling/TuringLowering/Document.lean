import TuringLowering.Cell.Basic
import TuringLowering.Observer
import TuringLowering.Text.Joined

/-!
This module contains JSON documents, their indented form, and the documents for cells, snapshots and
recorded configurations.
-/

namespace TuringLowering

inductive Document where
  | text (value : String)
  | number (value : Nat)
  | truth (value : Bool)
  | array (items : List Document)
  | object (fields : List (String × Document))

namespace Document

def hexDigit (n : Nat) : Char := Nat.digitChar (n % 16)

def escape (c : Char) : String :=
  match c with
  | '"' => "\\\""
  | '\\' => "\\\\"
  | '\n' => "\\n"
  | '\r' => "\\r"
  | '\t' => "\\t"
  | '\x08' => "\\b"
  | '\x0c' => "\\f"
  | c =>
    if c.toNat < 32 then
      "\\u00" ++ String.ofList [hexDigit (c.toNat / 16), hexDigit c.toNat]
    else String.singleton c

def quote (text : String) : String := "\"" ++ String.join (text.toList.map escape) ++ "\""

def indentation (depth : Nat) : String := String.ofList (List.replicate (2 * depth) ' ')

def block (opening closing : String) (depth : Nat) : List String → String
  | [] => opening ++ closing
  | items =>
    let separator := "\n" ++ indentation (depth + 1)
    opening ++ separator ++ joined ("," ++ separator) items ++ "\n" ++ indentation depth ++ closing

mutual

/-- The indented form, two spaces for each level. -/
def pretty (depth : Nat) : Document → String
  | .text value => quote value
  | .number value => toString value
  | .truth value => if value then "true" else "false"
  | .array items => block "[" "]" depth (prettyItems (depth + 1) items)
  | .object fields => block "\x7b" "\x7d" depth (prettyFields (depth + 1) fields)

def prettyItems (depth : Nat) : List Document → List String
  | [] => []
  | item :: items => pretty depth item :: prettyItems depth items

def prettyFields (depth : Nat) : List (String × Document) → List String
  | [] => []
  | (name, value) :: fields =>
    (quote name ++ ": " ++ pretty depth value) :: prettyFields depth fields

end

end Document

def Mark.document : Mark → Document
  | .literal text => .object [("Literal", .text text)]
  | .empty => .text "Empty"
  | .tapeStart => .text "TapeStart"
  | .boundLeft => .text "BoundLeft"
  | .boundRight => .text "BoundRight"
  | .afterLast => .text "AfterLast"
  | .state name => .object [("State", .text name)]

def Cell.document : Cell → Document :=
  let cell (symbol : Document) (head : Bool) : Document :=
    .object [("symbol", symbol), ("head", .truth head)]
  Cell.fold (fun mark head => cell mark.document head)
    fun parts head => cell (.object [("Tuple", .array parts)]) head

def Snapshot.document (s : Snapshot) : Document :=
  .object [("cells", .array (s.cells.map Cell.document)), ("head", .number s.head)]

def Record.document (r : Record) : Document :=
  .object [("state", .text r.state), ("tapes", .array (r.tapes.map Snapshot.document))]

end TuringLowering
