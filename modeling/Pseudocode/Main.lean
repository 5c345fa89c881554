import Pseudocode.Console
import Pseudocode.Export.Yaml

/-!
# The program

Files and streams around `Pseudocode.console`. Input is read one line at a time, when
the terminal waits for it.
-/
open Pseudocode

def readText (path : String) : IO (Option String) := do
  try
    return some (← IO.FS.readFile path)
  catch _ =>
    return none

/-- Passes on what has been written to a terminal since `done` pieces of it were passed on. -/
def passOn (t : Console.Terminal) (done : Nat) : IO Unit := do
  let out ← IO.getStdout
  let err ← IO.getStderr
  for w in t.written.toList.drop done do
    match w with
    | .output text => out.putStr text
    | .error text => err.putStr text
  out.flush
  err.flush

/-- Runs the command line on the lines typed so far, until it waits for no more of them. -/
partial def converse (args : List String) (file : Option String) (lines : List String)
    (ended : Bool) (done : Nat) : IO UInt32 := do
  let (t, exit) := console Yaml.text args (fun _ => file) { pending := lines, ended }
  passOn t done
  if t.waiting then
    let line ← (← IO.getStdin).getLine
    converse args file (lines ++ Text.readableLines line) line.isEmpty t.written.size
  else
    match exit with
    | .status code => return code.toUInt32
    | .uncaught => return 1

def main (args : List String) : IO UInt32 := do
  let file ← match Console.Options.read {} args with
    | .ok { file := some path, .. } => readText path
    | _ => pure none
  converse args file [] false 0
