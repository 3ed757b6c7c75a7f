import GraphCalc.Number.Text
import GraphCalc.Text.Quoted

/-! # JSON values

The values that a worksheet file may hold, and the text by which one stands for a worksheet line.
Main notions:

* `Json`: integers and floating numbers are kept apart, and members of objects are in order;
* `Json.shown`: a value as shown inside a list, with strings quoted;
* `Json.plain`: a value as a line, a string being the line itself;
* `Json.put`: a member added to an object, a repeated name keeping its first place.
-/

namespace GraphCalc
open GraphCalc.Text
set_option autoImplicit false

/-- A JSON value. -/
inductive Json where
  | null
  | boolean (value : Bool)
  | integer (value : Int)
  | float (value : Float)
  | string (value : String)
  | array (items : List Json)
  | object (members : List (String × Json))
  deriving Repr, Inhabited

namespace Json

/-- The names of the three literals in a shown value. -/
def nothingText : String := "None"

def truthText (b : Bool) : String := if b then "True" else "False"

mutual

def shown : Json → String
  | null => nothingText
  | boolean b => truthText b
  | integer n => toString n
  | float v => writeFloat Style.full v
  | string s => String.ofList (quoted s.toList)
  | array items => "[" ++ ", ".intercalate (shownItems items) ++ "]"
  | object members => "\x7b" ++ ", ".intercalate (shownMembers members) ++ "\x7d"

def shownItems : List Json → List String
  | [] => []
  | item :: rest => shown item :: shownItems rest

def shownMembers : List (String × Json) → List String
  | [] => []
  | (name, value) :: rest =>
    (String.ofList (quoted name.toList) ++ ": " ++ shown value) :: shownMembers rest

end

def plain : Json → String
  | string s => s
  | value => value.shown

/-- Adds a member; a repeated name takes the new value in its first place. -/
def put (name : String) (value : Json) (members : List (String × Json)) : List (String × Json) :=
  if members.any (·.1 == name) then
    members.map fun member => if member.1 == name then (name, value) else member
  else members ++ [(name, value)]

end Json
end GraphCalc
