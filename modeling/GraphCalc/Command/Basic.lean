import GraphCalc.Command.Arguments
import GraphCalc.Command.Value

/-! # Commands

The commands of the program and how they are written. Main notions:

* `Command`: a command with its arguments;
* `Invocation`: a command, and whether progress is reported;
* `Invocation.read`: the invocation in a list of arguments, or the reason why there is none: help
  or completion was asked for, or the arguments do not fit.
-/

namespace GraphCalc
set_option autoImplicit false

/-- What the program is asked to do. -/
inductive Command where
  /-- The value of an expression, with bindings written `name=value`. -/
  | eval (expression : String) (bindings : List String) (sheet : Option String)
  | tokens (expression : String)
  | tree (expression : String)
  | describe (lines : List String) (sheet : Option String)
  /-- The heights of all curves at equal steps between two places. -/
  | table (lines : List String) (first last : Float) (steps : Int) (sheet : Option String)
  | points (lines : List String) (left right bottom top : Float) (width : Option Int)
      (sheet : Option String)
  | integrals (lines : List String) (sheet : Option String)
  | save (path : String) (lines : List String)
  deriving Repr

namespace Command

def sheet? : Command → Option String
  | eval _ _ sheet => sheet
  | describe _ sheet => sheet
  | table _ _ _ _ sheet => sheet
  | points _ _ _ _ _ _ sheet => sheet
  | integrals _ sheet => sheet
  | tokens _ | tree _ | save _ _ => none

def target? : Command → Option String
  | save path _ => some path
  | _ => none

end Command

/-- A command, and whether progress is reported. -/
structure Invocation where
  verbose : Bool
  command : Command
  deriving Repr

/-- Why nothing is done. -/
inductive Refusal where
  | help
  /-- Completion was asked for, but there is no shell to complete for. -/
  | noShell
  | usage
  deriving DecidableEq, Repr

namespace Invocation

/-! ## Options -/

def helpOption : OptionSpec := .flag "--help"

/-- The options that ask for completion in a shell, known before the command. -/
def completionOptions : List OptionSpec :=
  [.flag "--install-completion", .flag "--show-completion"]

def globalOptions : List OptionSpec := .flag "--verbose" :: helpOption :: completionOptions

/-- What an option asks for in place of a command. -/
def request? (name : String) : Option Refusal :=
  if name = helpOption.name then some .help
  else if completionOptions.any (·.name == name) then some .noShell
  else none

/-- What the options ask for in place of a command; the first such option decides. -/
def requested? (s : Split) : Option Refusal := s.options.findSome? fun entry => request? entry.1

def sheetOption : OptionSpec := ⟨"--sheet", some 's', true⟩

def bindingOption : OptionSpec := ⟨"--var", some 'v', true⟩

def commandOptions? (name : String) : Option (List OptionSpec) :=
  [("eval", [bindingOption, sheetOption]), ("tokens", []), ("tree", []),
    ("describe", [sheetOption]),
    ("table", [.valued "--from", .valued "--to", .valued "--steps", sheetOption]),
    ("points", [.valued "--left", .valued "--right", .valued "--bottom", .valued "--top",
      .valued "--width", sheetOption]),
    ("integrals", [sheetOption]), ("save", [])].lookup name

/-- A number given by an option, or the usual one; refused if the option's value is no number. -/
def float? (s : Split) (name : String) (usual : Float) : Option Float :=
  match s.last? name with
  | some text => OptionValue.float? text.toList
  | none => some usual

/-- An integer given by an option, if it is given; refused if the option's value is no integer. -/
def int? (s : Split) (name : String) : Option (Option Int) :=
  match s.last? name with
  | some text => (OptionValue.int? text.toList).map some
  | none => some none

/-! ## Commands -/

def command? (name : String) (s : Split) : Option Command :=
  let sheet := s.last? sheetOption.name
  match name, s.positional with
  | "eval", [expression] => some (.eval expression (s.all bindingOption.name) sheet)
  | "tokens", [expression] => some (.tokens expression)
  | "tree", [expression] => some (.tree expression)
  | "describe", lines => some (.describe lines sheet)
  | "table", lines => do
    let first ← float? s "--from" (-5.0)
    let last ← float? s "--to" 5.0
    let steps ← int? s "--steps"
    return .table lines first last (steps.getD 10) sheet
  | "points", lines => do
    let left ← float? s "--left" (-10.0)
    let right ← float? s "--right" 10.0
    let bottom ← float? s "--bottom" (-10.0)
    let top ← float? s "--top" 10.0
    let width ← int? s "--width"
    return .points lines left right bottom top width sheet
  | "integrals", lines => some (.integrals lines sheet)
  | "save", path :: line :: lines => some (.save path (line :: lines))
  | _, _ => none

/-- Why arguments in which no command is found do nothing. A name with a dash is taken for an
option once more. -/
def refuse (name : String) (arguments : List String) : Refusal :=
  match name.toList, Arguments.split globalOptions false arguments with
  | '-' :: _, some s => (requested? s).getD .usage
  | _, _ => .usage

/-- The command in the arguments that follow its name. -/
def readCommand (name : String) (options : List OptionSpec) (arguments : List String) :
    Except Refusal Command :=
  match Arguments.split (helpOption :: options) true arguments with
  | none => .error .usage
  | some s =>
    match requested? s with
    | some refusal => .error refusal
    | none => match command? name s with
      | some command => .ok command
      | none => .error .usage

def read (arguments : List String) : Except Refusal Invocation :=
  match Arguments.split globalOptions false arguments with
  | none => .error .usage
  | some s =>
    match requested? s with
    | some refusal => .error refusal
    | none => match s.positional with
      | [] => .error .usage
      | name :: rest =>
        match commandOptions? name with
        | none => .error (refuse name (name :: rest))
        | some options => do
          return ⟨s.has "--verbose", ← readCommand name options rest⟩

end Invocation
end GraphCalc
