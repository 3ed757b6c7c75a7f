import GraphCalc.Text.Cutting

/-! # Splitting a command line

Arguments are options and values of options, or positional. An option is written `--name value` or
`--name=value`; one with a short name also `-n value` or `-nvalue`. A lone dash is positional, and
everything after two dashes is. Main notions:

* `OptionSpec`: an option that a command knows;
* `Split`: the options given, in order, and the positional arguments;
* `Arguments.split`: splits arguments, refusing unknown options, options without their value, and
  values for options that take none. Options may stand anywhere, or only before the first positional
  argument.
-/

namespace GraphCalc
open GraphCalc.Text
set_option autoImplicit false

/-- An option that a command knows. One with a short name takes a value. -/
structure OptionSpec where
  name : String
  short : Option Char
  takesValue : Bool
  deriving DecidableEq, Repr

def OptionSpec.flag (name : String) : OptionSpec := ⟨name, none, false⟩

def OptionSpec.valued (name : String) : OptionSpec := ⟨name, none, true⟩

/-- A command line taken apart. -/
structure Split where
  options : List (String × String)
  positional : List String
  deriving DecidableEq, Repr

namespace Split

def has (s : Split) (name : String) : Bool := s.options.any (·.1 == name)

def all (s : Split) (name : String) : List String :=
  (s.options.filter (·.1 == name)).map Prod.snd

/-- The value of an option that was given last. -/
def last? (s : Split) (name : String) : Option String := (s.all name).getLast?

def withOption (name value : String) (s : Split) : Split :=
  { s with options := (name, value) :: s.options }

def withPositional (argument : String) (s : Split) : Split :=
  { s with positional := argument :: s.positional }

end Split

namespace Arguments

/-- What one argument is. -/
inductive Role where
  | positional
  | flag (name : String)
  /-- An option whose value is the next argument. -/
  | awaiting (name : String)
  | option (name value : String)
  | unknown
  deriving DecidableEq, Repr

/-- An argument with a short option: the letter, then the value if anything follows. -/
def shortRole (specs : List OptionSpec) (letter : Char) (rest : List Char) : Role :=
  match specs.find? (·.short == some letter) with
  | some spec =>
    if rest.isEmpty then .awaiting spec.name else .option spec.name (String.ofList rest)
  | none => .unknown

/-- An argument that starts with a dash, cut into its name and an explicit value. -/
def dashedRole (specs : List OptionSpec) (letter : Char) (rest : List Char)
    (name : List Char) (explicit : Option (List Char)) : Role :=
  match specs.find? (·.name == String.ofList name), explicit with
  | some spec, some value =>
    if spec.takesValue then .option spec.name (String.ofList value) else .unknown
  | some spec, none => if spec.takesValue then .awaiting spec.name else .flag spec.name
  | none, _ => if letter = '-' then .unknown else shortRole specs letter rest

def role (specs : List OptionSpec) (argument : String) : Role :=
  match argument.toList with
  | '-' :: letter :: rest =>
    match splitFirst? '=' argument.toList with
    | some (name, value) => dashedRole specs letter rest name (some value)
    | none => dashedRole specs letter rest argument.toList none
  | _ => .positional

/-- Splits arguments; `anywhere` says whether options may follow positional arguments. -/
def split (specs : List OptionSpec) (anywhere : Bool) : List String → Option Split
  | [] => some ⟨[], []⟩
  | argument :: rest =>
    if argument = "--" then some ⟨[], rest⟩
    else
      match role specs argument with
      | .positional =>
        if anywhere then (split specs anywhere rest).map (Split.withPositional argument)
        else some ⟨[], argument :: rest⟩
      | .flag name => (split specs anywhere rest).map (Split.withOption name "")
      | .option name value => (split specs anywhere rest).map (Split.withOption name value)
      | .awaiting name =>
        match rest with
        | value :: rest => (split specs anywhere rest).map (Split.withOption name value)
        | [] => none
      | .unknown => none

end Arguments
end GraphCalc
