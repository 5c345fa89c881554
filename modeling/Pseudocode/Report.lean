import Pseudocode.Evaluation.Machine
import Pseudocode.Excerpt
import Pseudocode.SourceError
import Pseudocode.Value.Printer

/-!
# Reports

What a failed run tells: the error, where in the source it happened, and the calls
that had begun and not returned.
-/
namespace Pseudocode

inductive Failure where
  | source (error : SourceError)
  | fault (fault : Fault)
  deriving DecidableEq, Repr

/-- Why a run failed, what it tells, and the location it points at. -/
structure Report where
  cause : Failure
  message : String
  location : Option Location
  deriving DecidableEq, Repr

namespace Report

/-- An error in the words of a report, led by as much of its location as is known. -/
def headline (message : Option String) (l : Location) : String :=
  let message := match message with
    | none | some "" => "unknown failure"
    | some message => message
  match l.line, l.column with
  | none, _ => message
  | some line, none => s!"Error on line {line}: {message}"
  | some line, some column => s!"Error on line {line}, col {column}: {message}"

def text (r : Report) : String :=
  headline (some r.message) (r.location.getD {})

def place (line : Int) (column : Option Int) : String :=
  let column := (column.map toString).getD "None"
  s!"(line {line}, col {column})"

def ofSourceError (source : String) (e : SourceError) : Report :=
  let base := e.kind ++ ": " ++ e.message
  match e.location with
  | ⟨none, _⟩ => ⟨.source e, base, none⟩
  | l@⟨some line, column⟩ =>
      let rows := excerpt source line column
      ⟨.source e, base ++ " " ++ place line column ++ (if rows.isEmpty then "" else "\n" ++ rows),
        some l⟩

/-- A text with the place that it is about, if that is known. -/
def located (source : String) (focus : Option Location) (text : String) : String :=
  match focus with
  | some ⟨some line, column⟩ =>
      text ++ "\n" ++ place line column ++ "\n" ++ excerpt source line column
  | _ => text

section
variable (functionText : Function → Except Fault String)

/-- A call in a stack trace. Arguments that are shown as nothing at all leave no blank. -/
def activation (a : Activation) : Except Fault String := do
  let args := String.intercalate " " (← a.args.mapM (Value.report functionText))
  return "(" ++ a.name ++ (if args.isEmpty then "" else " " ++ args) ++ ")"

def stackTrace : List Activation → Except Fault String
  | [] => .ok ""
  | calls => do
      let frames ← calls.reverse.mapM (activation functionText)
      return "pcode stacktrace: " ++ String.intercalate " " frames

/-- A fault in one line. Faults in arguments name the latest call. -/
def faultLine (calls : List Activation) : Fault → Except Fault String
  | .interrupt name => .error (.interrupt name)
  | .wordless instead => .error instead
  | .unknownName name => .ok ("UnknownIdentifier: " ++ name)
  | fault@.invalidArguments =>
      .ok (fault.kind ++ ": " ++ fault.message ++
        match calls with
        | a :: _ => if a.name.isEmpty then "" else " in (" ++ a.name ++ ")"
        | [] => "")
  | fault => .ok (fault.kind ++ ": " ++ fault.message)

/-- The report on a run that ended in a fault, or the fault that comes out instead: the run was
called off, or something in the report has no text. -/
def ofFault (source : String) (m : Machine σ) (fault : Fault) : Except Fault Report := do
  let line ← faultLine m.calls fault
  let trace ← stackTrace functionText m.calls
  let message := located source m.focus line
  return ⟨.fault fault, if trace.isEmpty then message else message ++ "\n" ++ trace,
    m.focus.bind Location.pointed?⟩

end

end Report

end Pseudocode
