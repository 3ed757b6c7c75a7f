import GraphCalc.Json.Read
import GraphCalc.Text.Cutting

/-! # Worksheet files

A worksheet is kept as a JSON object whose member `expressions` is the list of its lines. Main
notions:

* `Document.write`: the text of the file for given lines;
* `Document.lines?`: the lines that a value stands for; items that are no strings are shown as
  texts, and an object without the member has no lines;
* `Document.read?`: the lines in the bytes of a file.
-/

namespace GraphCalc.Document
open GraphCalc.Text
set_option autoImplicit false

def memberName : String := "expressions"

/-! ## Writing -/

def writeString (text : String) : List Char := '"' :: Json.escaped text.toList ++ ['"']

/-- The items of the list, each on a line of its own. -/
def writeItems : List String → List Char
  | [] => []
  | [line] => "\n    ".toList ++ writeString line
  | line :: rest => "\n    ".toList ++ writeString line ++ [','] ++ writeItems rest

def writeList (lines : List String) : List Char :=
  if lines.isEmpty then "[]".toList else '[' :: writeItems lines ++ "\n  ]".toList

def write (lines : List String) : List Char :=
  '\x7b' :: "\n  ".toList ++ writeString memberName ++ ": ".toList ++ writeList lines ++
    ['\n', '\x7d']

/-! ## Reading -/

def lines? : Json → Option (List String)
  | .object members =>
    match members.lookup memberName with
    | none => some []
    | some (.array items) => some (items.map Json.plain)
    | some _ => none
  | _ => none

def ofText? (text : String) : Option (List String) := (Json.read? text.toList).bind lines?

def read? (bytes : ByteArray) : Option (List String) := (String.fromUTF8? bytes).bind ofText?

end GraphCalc.Document
