import GraphCalc.Command.Run
import GraphCalc.Display.Layout

/-! # The program

Collects the environment and the worksheet file that a command reads, runs the command, writes the
file that it wrote, and prints what it printed.
-/

set_option autoImplicit false

namespace GraphCalc.Program

def readEnvironment : IO Environment := do
  let entries ← Settings.variableNames.mapM fun name => do
    return (← IO.getEnv name).map fun text => (name, text)
  return entries.filterMap id

/-- The file at a path, if it can be read. -/
def readFile (path : String) : IO Files := do
  try
    let contents ← IO.FS.readBinFile path
    return ⟨((Files.place? (fun _ => true) path).map fun place => (place, contents)).toList⟩
  catch _ => return ⟨[]⟩

def writeFile (path : String) (contents : ByteArray) : IO Unit := do
  IO.FS.createDirAll (Path.above path)
  IO.FS.writeBinFile path contents

/-- Writes what a command wrote at a path, if it wrote anything. -/
def writeTarget (outcome : Outcome) (target : Option String) : IO Unit :=
  match target with
  | some path =>
    match outcome.files.read? path with
    | some contents => writeFile path contents
    | none => return
  | none => return

def print (channel : Channel) (printed : Printed) : IO Unit :=
  printed.layout.forM fun line =>
    match channel with
    | .output => IO.println line
    | .errors => IO.eprintln line

/-- Runs a list of arguments, and returns the exit code. -/
def perform (arguments : List String) : IO UInt32 := do
  let command := (Invocation.read arguments).toOption.map Invocation.command
  let files ← match command.bind Command.sheet? with
    | some path => readFile path
    | none => pure ⟨[]⟩
  let outcome := run ⟨← readEnvironment, files⟩ arguments
  try
    if outcome.exitCode = 0 then writeTarget outcome (command.bind Command.target?)
    outcome.printed.forM fun (channel, printed) => print channel printed
    return outcome.exitCode.toUInt32
  catch e =>
    IO.eprintln e
    return 1

end GraphCalc.Program

def main (arguments : List String) : IO UInt32 := GraphCalc.Program.perform arguments
