import GraphCalc.Expr.Basic
import GraphCalc.Expr.Token

/-! # Reading expressions

From loosest to tightest binding the levels of an expression are

* a *sum*: products joined by `+` and `-`, to the left;
* a *product*: operands joined by `*`, `/`, `%`, or by standing side by side, to the left;
* a *signed* operand: any number of signs before a power, so that a sign binds looser than `^`;
* a *power*: an atom, with an optional `^` and a signed exponent, to the right;
* an *atom*: a number, a variable, a bracketed sum, or a call.

A name is the head of a call exactly if it is callable and stands before an opening bracket. Two
numbers side by side are no product. Each routine is given the room left for nested routines and
uses up one unit, so a text nested too deeply is refused, at the token where the room ends. Main notions:

* `ParseError`: the causes of refusal, each with its position;
* `Expr.parse`: the tree of a token stream under a set of callable names;
* `Expr.read`, `Expr.readWithin`: the same from a text, in the usual room or in a given one.
-/

namespace GraphCalc
set_option autoImplicit false

/-! ## Causes of refusal -/

/-- What has to come next: the bracket behind the head of a call, or what an open bracket waits for. -/
inductive Wanted where
  | opening
  | closing
  | commaOrClosing
  deriving DecidableEq, Repr

/-- The token found at a fault: its text, or none at the end of the input. -/
abbrev Found := Option String

/-- Why a text is no expression. -/
inductive ParseError where
  | scan (error : ScanError)
  | empty (position : Nat)
  | unexpected (found : Found) (position : Nat)
  | expected (what : Wanted) (found : Found) (position : Nat)
  | emptyArgument (position : Nat)
  /-- The room for nested routines ended there. In a routine this is no refusal yet; the text as a whole is
  refused for it. -/
  | tooDeep (position : Nat)
  deriving DecidableEq, Repr

/-- A wanted token in words. -/
def Wanted.words : Wanted → String
  | opening => "'('"
  | closing => "')'"
  | commaOrClosing => "',' or ')'"

/-- A found token in words. -/
def Found.words (found : Found) : String := found.getD "end of input"

/-- The words for nesting beyond the room there is, for reading and for evaluating. -/
def tooDeepMessage : String := "Expression nested too deeply"

namespace ParseError

/-- Where the fault is. -/
def position : ParseError → Nat
  | scan e => e.position
  | empty p => p
  | unexpected _ p => p
  | expected _ _ p => p
  | emptyArgument p => p
  | tooDeep p => p

/-- Whether the room was too small for the nesting. -/
def isNesting : ParseError → Bool
  | tooDeep _ => true
  | _ => false

/-- The fault in words, with its position at the end. -/
def message : ParseError → String
  | scan e => e.message
  | empty p => "Empty expression" ++ placeText p
  | unexpected found p => "Unexpected '" ++ found.words ++ "'" ++ placeText p
  | expected what found p =>
    "Expected " ++ what.words ++ ", found '" ++ found.words ++ "'" ++ placeText p
  | emptyArgument p => "Empty argument" ++ placeText p
  | tooDeep p => tooDeepMessage ++ placeText p

end ParseError

namespace Parse

/-! ## Places in a token stream -/

/-- A place between two tokens: the tokens ahead, and whether a number stands just before. -/
structure Cursor where
  afterNumber : Bool
  ahead : List Token
  deriving Repr

/-- What a routine read, and the place behind it. -/
abbrev Reading (α : Type) := α × Cursor

/-- The position of the next token, or of the end of the text. -/
def Cursor.position (finish : Nat) (c : Cursor) : Nat :=
  (c.ahead.head?.map Token.position).getD finish

def Cursor.found (c : Cursor) : Found := c.ahead.head?.map Token.text

/-- If the next token is one of the given operators: which, and the place behind it. -/
def Cursor.operator? (among : List Operator) (c : Cursor) : Option (Operator × Cursor) :=
  match c.ahead with
  | ⟨.operator, text, _⟩ :: rest =>
    (among.find? (·.symbol == text)).map fun operator => (operator, ⟨false, rest⟩)
  | _ => none

/-- If the next token is a sign: which, and the place behind it. -/
def Cursor.sign? (c : Cursor) : Option (Sign × Cursor) :=
  match c.ahead with
  | ⟨.operator, text, _⟩ :: rest =>
    ([Sign.plus, Sign.minus].find? (·.symbol == text)).map fun sign => (sign, ⟨false, rest⟩)
  | _ => none

/-- Whether an operand starts here that multiplies the one just read. -/
def Cursor.juxtaposed (c : Cursor) : Bool :=
  match c.ahead with
  | ⟨.number _, _, _⟩ :: _ => !c.afterNumber
  | ⟨.name, _, _⟩ :: _ => true
  | ⟨.opening, _, _⟩ :: _ => true
  | _ => false

/-- The place behind a closing bracket that has to come next. -/
def Cursor.close (finish : Nat) (what : Wanted) (c : Cursor) : Except ParseError Cursor :=
  match c.ahead with
  | ⟨.closing, _, _⟩ :: rest => .ok ⟨false, rest⟩
  | _ => .error (.expected what c.found (c.position finish))

/-- The arguments of a call from its opening bracket on, which has to come next; `inside` reads what is
behind it. -/
def called (finish : Nat) (inside : Cursor → Except ParseError (Reading (List Expr))) (c : Cursor) :
    Except ParseError (Reading (List Expr)) :=
  match c.ahead with
  | ⟨.opening, _, _⟩ :: rest => inside ⟨false, rest⟩
  | _ => .error (.expected .opening c.found (c.position finish))

/-! ## Repetition -/

/-- Extends an expression to the left while something follows that extends it. `more` says whether,
and reads the operator and the operand; the first argument bounds the number of steps. -/
def extend (more : Cursor → Option (Except ParseError (Reading (Operator × Expr)))) :
    Nat → Expr → Cursor → Except ParseError (Reading Expr)
  | 0, left, c => .ok (left, c)
  | steps + 1, left, c =>
    match more c with
    | none => .ok (left, c)
    | some reading => do
      let ((operator, right), c) ← reading
      extend more steps (.binary operator left right) c

/-- The arguments up to the closing bracket, at least one, separated by commas. -/
def arguments (finish : Nat) (argument : Cursor → Except ParseError (Reading Expr)) :
    Nat → Cursor → Except ParseError (Reading (List Expr))
  | 0, c => .error (.expected .commaOrClosing c.found (c.position finish))
  | steps + 1, c =>
    match c.ahead with
    | ⟨.comma, _, _⟩ :: _ => .error (.emptyArgument (c.position finish))
    | ⟨.closing, _, _⟩ :: _ => .error (.emptyArgument (c.position finish))
    | _ => do
      let (first, c) ← argument c
      match c.ahead with
      | ⟨.comma, _, _⟩ :: rest =>
        let (others, c) ← arguments finish argument steps ⟨false, rest⟩
        return (first :: others, c)
      | _ => return ([first], ← c.close finish .commaOrClosing)

/-! ## The levels of an expression -/

variable (callable : String → Bool) (finish : Nat)

mutual

/-- Products joined by `+` and `-`. -/
def sum : Nat → Cursor → Except ParseError (Reading Expr)
  | 0, c => .error (.tooDeep (c.position finish))
  | room + 1, c => do
    let (left, c) ← product room c
    extend (fun c => (c.operator? [.add, .subtract]).map fun (operator, c) => do
      let (right, c) ← product room c
      return ((operator, right), c)) c.ahead.length left c

/-- Operands joined by `*`, `/`, `%` or by standing side by side. -/
def product : Nat → Cursor → Except ParseError (Reading Expr)
  | 0, c => .error (.tooDeep (c.position finish))
  | room + 1, c => do
    let (left, c) ← signed room c
    extend (fun c =>
      match c.operator? [.multiply, .divide, .modulo] with
      | some (operator, c) => some do
        let (right, c) ← signed room c
        return ((operator, right), c)
      | none =>
        if c.juxtaposed then some do
          let (right, c) ← power room c
          return ((.multiply, right), c)
        else none) c.ahead.length left c

def signed : Nat → Cursor → Except ParseError (Reading Expr)
  | 0, c => .error (.tooDeep (c.position finish))
  | room + 1, c =>
    match c.sign? with
    | some (sign, c) => do
      let (operand, c) ← signed room c
      return (.signed sign operand, c)
    | none => power room c

def power : Nat → Cursor → Except ParseError (Reading Expr)
  | 0, c => .error (.tooDeep (c.position finish))
  | room + 1, c => do
    let (base, c) ← atom room c
    match c.operator? [.power] with
    | some (operator, c) =>
      let (exponent, c) ← signed room c
      return (.binary operator base exponent, c)
    | none => return (base, c)

/-- A number, a variable, a bracketed sum or a call. -/
def atom : Nat → Cursor → Except ParseError (Reading Expr)
  | 0, c => .error (.tooDeep (c.position finish))
  | room + 1, c =>
    match c.ahead with
    | ⟨.number value, _, _⟩ :: rest => .ok (.number value, ⟨true, rest⟩)
    | ⟨.name, name, _⟩ :: rest =>
      match rest with
      | ⟨.opening, _, _⟩ :: _ =>
        if callable name then do
          let (arguments, c) ← called finish (bracketed room) ⟨false, rest⟩
          return (.call name arguments, c)
        else .ok (.var name, ⟨false, rest⟩)
      | _ => .ok (.var name, ⟨false, rest⟩)
    | ⟨.opening, _, _⟩ :: rest => do
      let (inner, c) ← sum room ⟨false, rest⟩
      return (inner, ← c.close finish .closing)
    | _ => .error (.unexpected c.found (c.position finish))

/-- The arguments of a call behind its opening bracket. -/
def bracketed : Nat → Cursor → Except ParseError (Reading (List Expr))
  | 0, c => .error (.tooDeep (c.position finish))
  | room + 1, c =>
    match c.ahead with
    | ⟨.closing, _, _⟩ :: rest => .ok ([], ⟨false, rest⟩)
    | _ => arguments finish (sum room) (c.ahead.length + 1) c

end

def room : Nat := 970

end Parse

/-- The number of nested steps left; `none` is no limit. -/
abbrev Room := Option Nat

namespace Expr

/-- The tree of a token stream, read in a given room. -/
def parseWithin (room : Nat) (callable : String → Bool) (stream : Token.Stream) :
    Except ParseError Expr :=
  if stream.tokens.isEmpty then .error (.empty stream.finish)
  else do
    let (e, c) ← Parse.sum callable stream.finish room ⟨false, stream.tokens⟩
    match c.ahead with
    | [] => return e
    | token :: _ => .error (.unexpected (some token.text) token.position)

def parse (callable : String → Bool) (stream : Token.Stream) : Except ParseError Expr :=
  parseWithin Parse.room callable stream

/-- The tree of a text, read in a given room. -/
def readWithin (room : Nat) (callable : String → Bool) (text : String) : Except ParseError Expr :=
  match Token.scan text.toList with
  | .ok stream => parseWithin room callable stream
  | .error e => .error (.scan e)

def read (callable : String → Bool) (text : String) : Except ParseError Expr :=
  readWithin Parse.room callable text

/-- Room in which no text of the length of `text` is nested too deeply. -/
def roomFor (text : String) : Nat := 5 * text.toList.length + 5

end Expr
end GraphCalc
