/-! # Trimming and cutting texts

Texts are handled as lists of characters. Blanks are taken off their ends, and they are cut at the first
or the last occurrence of a character, or at every occurrence of a pair of equal characters. Cut marks
belong to no piece. Main notions:

* `isBlank`: the twenty-nine characters of white space (the ASCII ones, the four information
  separators, the Unicode spaces and the two Unicode line ends);
* `trimStart`, `trimEnd`, `trim`: a text without the blanks at its start, its end, or both;
* `trimmed`: a string without the blanks at its two ends;
* `splitFirst?`, `splitLast?`: the text before and after a character;
* `beforeEnd?`, `afterStart?`: a text without a given ending or beginning, if it has it;
* `splitPairs`: the pieces between pairs, read from the left, so that of three marks in a row the
  first two are a pair.
-/

namespace GraphCalc.Text
set_option autoImplicit false

/-! ## Blanks -/

def isBlank (c : Char) : Bool :=
  let n := c.toNat
  (9 ≤ n && n ≤ 13) || (28 ≤ n && n ≤ 32) || n == 0x85 || n == 0xa0 || n == 0x1680 ||
    (0x2000 ≤ n && n ≤ 0x200a) || n == 0x2028 || n == 0x2029 || n == 0x202f || n == 0x205f ||
    n == 0x3000

/-! ## Trimming -/

/-- The text from its first character that is not blank. -/
def trimStart (text : List Char) : List Char := text.dropWhile isBlank

/-- The text up to its last character that is not blank. -/
def trimEnd (text : List Char) : List Char := (text.reverse.dropWhile isBlank).reverse

/-- The text between its first and its last character that is not blank. -/
def trim (text : List Char) : List Char := trimEnd (trimStart text)

/-- A string without the blanks at its two ends. -/
def trimmed (text : String) : String := String.ofList (trim text.toList)

/-! ## Cutting -/

/-- The text before and after the first occurrence of a character. -/
def splitFirst? (mark : Char) : List Char → Option (List Char × List Char)
  | [] => none
  | c :: rest =>
    if c = mark then some ([], rest)
    else (splitFirst? mark rest).map fun (before, after) => (c :: before, after)

/-- The text before and after the last occurrence of a character. -/
def splitLast? (mark : Char) : List Char → Option (List Char × List Char)
  | [] => none
  | c :: rest =>
    match splitLast? mark rest with
    | some (before, after) => some (c :: before, after)
    | none => if c = mark then some ([], rest) else none

def beforeEnd? (ending text : List Char) : Option (List Char) :=
  if ending.isSuffixOf text then some (text.take (text.length - ending.length)) else none

def afterStart? (beginning text : List Char) : Option (List Char) :=
  if beginning.isPrefixOf text then some (text.drop beginning.length) else none

/-- Puts a character in front of the first piece. -/
def consFirst (c : Char) : List (List Char) → List (List Char)
  | [] => [[c]]
  | piece :: pieces => (c :: piece) :: pieces

/-- The pieces of a text between pairs of a character. -/
def splitPairs (mark : Char) : List Char → List (List Char)
  | [] => [[]]
  | [c] => [[c]]
  | c :: d :: rest =>
    if c = mark ∧ d = mark then [] :: splitPairs mark rest
    else consFirst c (splitPairs mark (d :: rest))

end GraphCalc.Text
