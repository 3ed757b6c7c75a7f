import GraphCalc.Command.Basic
import GraphCalc.Command.Files
import GraphCalc.Display.Basic
import GraphCalc.Settings
import GraphCalc.Worksheet.Basic

/-! # Running commands

A command acts on a world of files and printed things. It reports its progress as it goes, prints an
answer or writes a worksheet file, and may stop anywhere on the way, with a message or, where something
goes wrong that no message is meant for, without one. What it has printed and written until then stays.
Main notions:

* `World`, `Work`: the world, and a computation that acts on it and may stop;
* `Session`: the settings of a run, and whether progress is reported;
* `Command.perform`: what a command does;
* `Outcome`: exit code, printed things and files; `run`: the outcome of a list of arguments.
-/

namespace GraphCalc
set_option autoImplicit false

/-! ## Work -/

/-- Where something is printed. -/
inductive Channel where
  | output
  | errors
  deriving DecidableEq, Repr

/-- The files, and what has been printed so far. -/
structure World where
  printed : List (Channel × Printed)
  files : Files

/-- A computation that acts on the world and may stop with an exit code. -/
abbrev Work (α : Type) := ExceptT Nat (StateM World) α

namespace Work

def print (channel : Channel) (printed : Printed) : Work Unit :=
  modify fun world => { world with printed := world.printed ++ [(channel, printed)] }

def remark (text : String) : Work Unit := print .errors (.markup text)

def abort {α : Type} : Work α := throw 1

/-- How a line begins that says why the program stops. -/
def errorMark : String := styledText "red" "Error:"

def fail {α : Type} (text : String) : Work α := do
  remark (errorMark ++ " " ++ text)
  abort

def contents? (path : String) : Work (Option ByteArray) := do
  return (← get).files.read? path

def write (path : String) (contents : ByteArray) : Work Unit := do
  match (← get).files.write? path contents with
  | some files => modify fun world => { world with files := files }
  | none => abort

end Work

/-! ## Sessions -/

/-- What a command is run with. -/
structure Session where
  settings : Settings
  verbose : Bool

namespace Session
open Work

def note (session : Session) (text : String) : Work Unit :=
  if session.verbose then remark (styledText "dim" text) else return

def sheet (session : Session) (path : String) : Work Worksheet := do
  match (← contents? path).bind (Worksheet.load? session.settings) with
  | none => fail ("Cannot read worksheet: " ++ Path.normal path)
  | some w =>
    session.note ("Loaded " ++ w.lines.length.repr ++ " line(s) from " ++ Path.normal path)
    return w

/-- The worksheet in a file, if one is given, or one without lines. -/
def scope (session : Session) (sheet : Option String) : Work Worksheet :=
  match sheet with
  | some path => session.sheet path
  | none => return .ofLines session.settings []

/-- The lines of the worksheet in a file, if one is given. -/
def savedLines (session : Session) (sheet : Option String) : Work (List String) :=
  match sheet with
  | some path => do return (← session.sheet path).lines
  | none => return []

/-- The worksheet with the lines of a file, if one is given, followed by given lines. -/
def worksheet (session : Session) (lines : List String) (sheet : Option String) :
    Work Worksheet := do
  let all := (← session.savedLines sheet) ++ lines
  if all.isEmpty then fail "No expressions given"
  else return .ofLines session.settings all

end Session

/-! ## Commands -/

namespace Command
open Work

/-- A number in a progress report. -/
def shortText (v : Float) : String := writeFloat Style.general v

/-- The binding in a text `name=value`. -/
def binding (raw : String) : Work (String × Float) :=
  let invalid := fail ("Invalid binding '" ++ raw ++ "', expected name=value")
  match Text.splitFirst? '=' raw.toList with
  | none => invalid
  | some (name, value) =>
    let name := String.ofList (Text.trim name)
    if name = "" then invalid
    else match Numeral.readFloat? value with
      | some v => return (name, v)
      | none => fail ("Invalid number in binding '" ++ raw ++ "'")

/-- Adds a binding; a repeated name takes the new value in its first place. -/
def bind (bindings : Bindings) (entry : String × Float) : Bindings :=
  if bindings.any (·.1 == entry.1) then
    bindings.map fun old => if old.1 == entry.1 then entry else old
  else bindings ++ [entry]

def namesText (names : List String) : String :=
  if names.isEmpty then "none" else ", ".intercalate names

/-- Bindings as a table of names, or a word for none. -/
def bindingsText (bindings : Bindings) : String :=
  if bindings.isEmpty then "none"
  else
    let members := bindings.map fun (name, v) =>
      String.ofList (Text.quoted name.toList) ++ ": " ++ writeFloat Style.full v
    "\x7b" ++ ", ".intercalate members ++ "\x7d"

def evalWork (session : Session) (expression : String) (raw : List String) (sheet : Option String) :
    Work Unit := do
  let bindings := (← raw.mapM binding).foldl bind []
  let w ← session.scope sheet
  session.note ("Bindings: " ++ bindingsText bindings ++ "; user functions: " ++
    namesText w.definitions.names)
  match (w.evaluate expression bindings).1 with
  | .ok v => print .output (.markup (displayFloat v))
  | .error (.grid _) => abort
  | .error e => fail e.message

def tokensWork (expression : String) : Work Unit :=
  match Token.scan expression.toList with
  | .ok stream => print .output (Display.tokens stream.tokens)
  | .error e => fail e.message

def treeWork (expression : String) : Work Unit :=
  match Expr.read isReserved expression with
  | .ok e =>
    match Display.tree? e with
    | some shown => print .output shown
    | none => abort
  | .error e => fail e.message

def describeWork (session : Session) (lines : List String) (sheet : Option String) : Work Unit := do
  let w ← session.worksheet lines sheet
  print .output (Display.descriptions w.classified.1)

/-- The columns of a table of values, one for each curve; vertical lines are passed over. -/
def columns (session : Session) (xs : List Float) : List Line → Worksheet →
    List (String × List Float) → Work (List (String × List Float))
  | [], _, done => return done
  | line :: lines, w, done => do
    match line.shape with
    | .vertical _ =>
      session.note ("Skipping vertical line: " ++ line.source)
      columns session xs lines w done
    | .curve _ =>
      let (ys, w) := w.ask (Engine.run (xs.mapM line.graph.valueAt))
      columns session xs lines w (Display.putColumn line.source ys done)

def places (first last : Float) (steps : Int) : List Float :=
  let h := (last - first) / Float.ofInt steps
  (List.range (steps + 1).toNat).map fun i => first + Float.ofNat i * h

/-- The heights of all curves. The number of steps has to be a double, for the width is divided by it. -/
def tableWork (session : Session) (lines : List String) (first last : Float) (steps : Int)
    (sheet : Option String) : Work Unit := do
  if steps < 1 then fail "--steps must be at least 1"
  else
    let w ← session.worksheet lines sheet
    if !(Float.ofInt steps).isFinite then abort
    else
      let (lines, w) := w.classified
      let xs := places first last steps
      let columns ← columns session xs lines w []
      if columns.isEmpty then fail "No function lines to tabulate"
      else print .output (Display.values xs columns)

/-- The key points of lines. A width of zero stands for the usual one. -/
def pointsWork (session : Session) (lines : List String) (left right bottom top : Float)
    (width : Option Int) (sheet : Option String) : Work Unit := do
  let w ← session.worksheet lines sheet
  let given := width.getD 0
  let width := if given = 0 then session.settings.width else given
  match Viewport.make left right bottom top width with
  | .error e => fail e.message
  | .ok view =>
    if !(Float.ofNat view.width).isFinite then abort
    else
      session.note ("Sampling " ++ view.width.repr ++ " steps of " ++ shortText view.step ++
        " across [" ++ shortText left ++ ", " ++ shortText right ++ "]")
      print .output (Display.points (w.keyPoints view).1)

def integralsWork (session : Session) (lines : List String) (sheet : Option String) : Work Unit := do
  let w ← session.worksheet lines sheet
  session.note ("Simpson intervals: " ++ toString session.settings.simpsonIntervals)
  print .output (Display.integrals w.integrals.1)

def saveWork (session : Session) (path : String) (lines : List String) : Work Unit := do
  let w := Worksheet.ofLines session.settings lines
  if w.lines.isEmpty then fail "No expressions given"
  else
    write path w.write.toUTF8
    remark ("Worksheet written to " ++ Path.normal path)

def perform (session : Session) : Command → Work Unit
  | .eval expression bindings sheet => evalWork session expression bindings sheet
  | .tokens expression => tokensWork expression
  | .tree expression => treeWork expression
  | .describe lines sheet => describeWork session lines sheet
  | .table lines first last steps sheet => tableWork session lines first last steps sheet
  | .points lines left right bottom top width sheet =>
    pointsWork session lines left right bottom top width sheet
  | .integrals lines sheet => integralsWork session lines sheet
  | .save path lines => saveWork session path lines

end Command

/-! ## Outcomes -/

/-- What the program finds when it starts. -/
structure Surroundings where
  environment : Environment
  files : Files

def Surroundings.settings (s : Surroundings) : Settings := .ofEnvironment s.environment

/-- What a run of the program leaves behind. -/
structure Outcome where
  exitCode : Nat
  printed : List (Channel × Printed)
  files : Files

/-- What a computation leaves behind if nothing has been printed before. -/
def Work.outcome (work : Work Unit) (files : Files) : Outcome :=
  match work.run.run ⟨[], files⟩ with
  | (.ok (), world) => ⟨0, world.printed, world.files⟩
  | (.error exitCode, world) => ⟨exitCode, world.printed, world.files⟩

def run (s : Surroundings) (arguments : List String) : Outcome :=
  match Invocation.read arguments with
  | .ok invocation => (invocation.command.perform ⟨s.settings, invocation.verbose⟩).outcome s.files
  | .error .help => ⟨0, [], s.files⟩
  | .error .noShell => ⟨1, [], s.files⟩
  | .error .usage => ⟨2, [], s.files⟩

end GraphCalc
