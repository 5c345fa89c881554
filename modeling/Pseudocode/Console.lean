import Pseudocode.Export
import Pseudocode.Program
import Pseudocode.Run
import Pseudocode.Text.Blank

/-!
# The command line

A script file is run, or printed as a tree, and its value is shown. Without a file,
every line of input is a program of its own.

A terminal is what has been written to it and the lines that are left to read. When
a line is asked for that has not been typed yet, nothing more is written: the same
call with more input gives the same output so far and then goes on.
-/
namespace Pseudocode

namespace Console

inductive Written where
  | output (text : String)
  | error (text : String)
  deriving DecidableEq, Repr

structure Terminal where
  written : Array Written := #[]
  /-- The lines left to read, with their line feeds. -/
  pending : List String := []
  /-- No line will follow the pending ones. -/
  ended : Bool := true
  /-- A line was asked for that has not been typed yet. -/
  waiting : Bool := false
  deriving DecidableEq, Repr

namespace Terminal

/-- Writes, unless the terminal waits for a line. -/
def write (t : Terminal) (w : Written) : Terminal :=
  if t.waiting then t else { t with written := t.written.push w }

def print (t : Terminal) (text : String) : Terminal := t.write (.output (text ++ "\n"))

def complain (t : Terminal) (text : String) : Terminal := t.write (.error (text ++ "\n"))

/-- Shows a prompt and reads a line, which is empty at the end of input. -/
def ask (t : Terminal) (prompt : String) : String × Terminal :=
  let t := t.write (.output prompt)
  match t.pending with
  | line :: rest => (line, { t with pending := rest })
  | [] => ("", if t.ended then t else { t with waiting := true })

def output (t : Terminal) : String :=
  String.join (t.written.toList.map fun | .output text => text | .error _ => "")

def errors (t : Terminal) : String :=
  String.join (t.written.toList.map fun | .output _ => "" | .error text => text)

end Terminal

/-- A text without line feeds at its end. -/
def chomp (s : String) : String :=
  String.ofList (s.toList.reverse.dropWhile (· = '\n')).reverse

def host : Host Terminal where
  channel := some
    { display := fun text t => (.ok (), t.print text)
      input := fun prompt t =>
        let (line, t) := t.ask (prompt ++ ": ")
        (.ok (.text (chomp line)), t) }
  functions := []
  call _ _ t := .fail .invalidArguments t

structure Options where
  file : Option String := none
  format : Option Format := none
  /-- Programs are printed as trees and not run. -/
  tree : Bool := false
  deriving DecidableEq, Repr

inductive UsageError where
  | noFormat
  | unknownOption (argument : String)
  deriving DecidableEq, Repr

def UsageError.message : UsageError → String
  | noFormat => "Error: --format takes json or yaml"
  | unknownOption argument => "Error: unknown option " ++ argument

/-- Reads the arguments from left to right; the last file and the last format count. -/
def Options.read (o : Options) : List String → Except UsageError Options
  | [] => .ok o
  | "--ast" :: args => { o with tree := true }.read args
  | "--format" :: "json" :: args => { o with format := some .json }.read args
  | "--format" :: "yaml" :: args => { o with format := some .yaml }.read args
  | "--format" :: _ => .error .noFormat
  | arg :: args =>
      if arg.toList.head? = some '-' then .error (.unknownOption arg)
      else { o with file := some arg }.read args

/-- The text of a final value, if it has one. The empty list has none. -/
def valueText (yaml : Datum → String) (format : Option Format) (v : Value) :
    Except Fault (Option String) :=
  match v with
  | .list [] | .derivedList [] _ => .ok none
  | v => do
      v.ensureDisplayable
      match format with
      | some f => return some (chomp (f.write yaml true (← v.toDatum)))
      | none => return some (← v.print 2 0)

inductive Verdict where
  | good
  | bad
  /-- An error that nothing catches. -/
  | fatal
  deriving DecidableEq, Repr

inductive Exit where
  | status (code : Nat)
  | uncaught
  deriving DecidableEq, Repr

def Verdict.exit : Verdict → Exit
  | good => .status 0
  | bad => .status 1
  | fatal => .uncaught

section
variable (yaml : Datum → String) (limit : Nat)

def showTree (t : Terminal) (source : String) : Terminal × Verdict :=
  match parse source limit >>= (printProgram 2 · limit) with
  | .ok text => (t.print text, .good)
  | .error .tooDeep => (t, .fatal)
  | .error e => (t.complain (e.kind ++ ": " ++ e.message), .bad)

def showRun (o : Options) (t : Terminal) (source : String) : Terminal × Verdict :=
  let outcome := run host [] source t limit
  let t := outcome.machine.host
  match outcome.result with
  | .error (.escape _) => (t, .fatal)
  | .error (.report report) => (t.complain report.text, .bad)
  | .ok value =>
      match valueText yaml o.format value with
      | .ok none => (t, .good)
      | .ok (some text) => (t.print text, .good)
      | .error fault =>
          if fault.isHard then (t.complain (fault.kind ++ ": " ++ fault.message), .bad)
          else (t, .fatal)

def showProgram (o : Options) (t : Terminal) (source : String) : Terminal × Verdict :=
  if o.tree then showTree limit t source else showRun yaml limit o t source

/-- Handles a script file, given its text if it was found. -/
def script (o : Options) (path : String) (text : Option String) (t : Terminal) :
    Terminal × Exit :=
  match text with
  | none => (t.complain ("Error: file not found: " ++ path), .status 1)
  | some text =>
      let source := String.ofList (Text.unifyLineEnds text.toList)
      let (t, verdict) := showProgram yaml limit o t source
      (t, verdict.exit)

/-- Takes lines as programs until the end of input or until a line says to stop. Every line is
read from those pending, so their number bounds the turns. -/
def prompt (o : Options) : (turns : Nat) → Terminal → Terminal × Exit
  | 0, t => (t, .status 0)
  | turns + 1, t =>
      let (line, t) := t.ask ">> "
      if line.isEmpty then (t.print "\nExiting.", .status 0)
      else
        let source := String.ofList (Text.trim line.toList)
        if source = "exit" then (t, .status 0)
        else if source.isEmpty then prompt o turns t
        else
          match showProgram yaml limit o t source with
          | (t, .fatal) => (t, .uncaught)
          | (t, _) => prompt o turns t

def interactive (o : Options) (t : Terminal) : Terminal × Exit :=
  let t := (t.print "pcode REPL v0.1").print "Type 'exit' or press Ctrl+D to quit."
  prompt yaml limit o (t.pending.length + 1) t

end

end Console

/-- Runs a command line at a terminal, given how YAML is written and how files are read. -/
def console (yaml : Datum → String) (args : List String) (readFile : String → Option String)
    (t : Console.Terminal) (limit : Nat := nestingLimit) : Console.Terminal × Console.Exit :=
  match Console.Options.read {} args with
  | .error e => (t.complain e.message, .status 2)
  | .ok o =>
      match o.file with
      | some path => Console.script yaml limit o path (readFile path) t
      | none => Console.interactive yaml limit o t

end Pseudocode
