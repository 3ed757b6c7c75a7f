import GraphCalc.Area.Shading
import GraphCalc.Plot.KeyPoint
import GraphCalc.Worksheet.Document

/-! # Worksheets

A worksheet holds lines, blank ones left out and without blanks at their ends. The definitions among
them are callable from every line. It remembers the lines it has classified, and its engine
remembers the texts it has read; changing the lines makes both forget. Main notions:

* `Worksheet.ofLines`, `Worksheet.setLines`, `Worksheet.add`: making and changing a worksheet;
* `Worksheet.definitions`: the functions that lines define, the last definition of a name counting;
* `Worksheet.classify`, `Worksheet.classified`: a line, or all lines, classified;
* `Worksheet.valueAt`, `Worksheet.integrals`, `Worksheet.keyPoints`, `Worksheet.evaluate`: answers;
* `Worksheet.write`, `Worksheet.load?`: the worksheet as a file.

Each operation that may fill a memo table returns its answer with the worksheet after it.
-/

namespace GraphCalc
open GraphCalc.Text
set_option autoImplicit false

/-- Lines, the lines classified so far, and an engine that knows the definitions. -/
structure Worksheet where
  lines : List String
  known : Memo Line
  engine : Engine

namespace Worksheet

/-! ## Lines -/

/-- Lines without blanks at their ends, less the blank ones. -/
def tidy (lines : List String) : List String := (lines.map trimmed).filter (· != "")

def definitionsOf (lines : List String) : FunctionTable :=
  .ofList (lines.filterMap Definition.ofLine?)

/-- The functions that the lines of a worksheet define. -/
def definitions (w : Worksheet) : FunctionTable := definitionsOf w.lines

/-- A worksheet that has answered nothing. -/
def ofLines (settings : Settings) (lines : List String) : Worksheet :=
  let lines := tidy lines
  ⟨lines, Memo.empty, Engine.fresh settings (definitionsOf lines)⟩

def setLines (lines : List String) (w : Worksheet) : Worksheet :=
  let lines := tidy lines
  ⟨lines, Memo.empty, w.engine.setFunctions (definitionsOf lines)⟩

def add (line : String) (w : Worksheet) : Worksheet := w.setLines (w.lines ++ [line])

/-! ## Classified lines -/

/-- A line classified, whether or not it is in the worksheet. -/
def classify (source : String) (w : Worksheet) : Line × Worksheet :=
  let (line, known) := w.known.consult none Line.read source
  (line, { w with known := known })

def classifyAll : List String → Worksheet → List Line × Worksheet
  | [], w => ([], w)
  | source :: sources, w =>
    let (line, w) := w.classify source
    let (lines, w) := w.classifyAll sources
    (line :: lines, w)

def classified (w : Worksheet) : List Line × Worksheet := w.classifyAll w.lines

/-! ## Answers -/

/-- Lets the engine answer. -/
def ask {α : Type} (question : Engine → α × Engine) (w : Worksheet) : α × Worksheet :=
  let (answer, engine) := question w.engine
  (answer, { w with engine := engine })

/-- The height of a line at a place, undefined outside its limits. -/
def valueAt (source : String) (x : Float) (w : Worksheet) : Float × Worksheet :=
  let (line, w) := w.classify source
  w.ask (Engine.run (line.graph.valueAt x))

/-- The value of a text under bindings, with every fault reported. -/
def evaluate (source : String) (bindings : Bindings) (w : Worksheet) :
    Except EvalError Float × Worksheet :=
  w.ask (Engine.evaluate source bindings)

/-- The integrals in lines with their values. -/
def integralValues (lines : List Line) : Inquiry (List (IntegralCall × Float)) :=
  (lines.flatMap fun line => IntegralCall.all line.base).mapM fun call => return (call, ← call.value)

def integrals (w : Worksheet) : List (IntegralCall × Float) × Worksheet :=
  let (lines, w) := w.classified
  w.ask (Engine.run (integralValues lines))

/-- The key points of all lines in a viewport. -/
def keyPoints (view : Viewport) (w : Worksheet) : List Point × Worksheet :=
  let (lines, w) := w.classified
  w.ask (Engine.run (GraphCalc.keyPoints w.engine.settings view (lines.map Line.graph)))

/-! ## Files -/

def write (w : Worksheet) : String := String.ofList (Document.write w.lines)

def load? (settings : Settings) (bytes : ByteArray) : Option Worksheet :=
  (Document.read? bytes).map (ofLines settings)

end Worksheet
end GraphCalc
