import Pseudocode.Evaluation.Basic
import Pseudocode.Node.Parser
import Pseudocode.Report

/-!
# Running programs

A run starts from a fresh arena. Its root scope binds the builtin functions, then
the host's functions, then what the caller gives; later bindings replace earlier
ones in place. A run that fails ends with a report, unless no report can be made of
what has happened; then that comes out of the run.
-/
namespace Pseudocode

/-- How a run ended that has no value. -/
inductive Stop where
  | report (report : Report)
  /-- A fault has come out of the run. -/
  | escape (fault : Fault)
  deriving DecidableEq, Repr

/-- How a run ended, and the state it left. -/
structure Outcome (σ : Type) where
  result : Except Stop Value
  machine : Machine σ

def rootBindings (host : Host σ) (given : Bindings) : Bindings :=
  let functions := host.functions.map fun name => (name, Value.function (.host name))
  (Builtin.bindings.insertAll functions).insertAll given

namespace Outcome

/-- Ends a run with a report, which is also its last effect. -/
def failed (m : Machine σ) (report : Report) : Outcome σ where
  result := .error (.report report)
  machine := { m with effects := m.effects.push ⟨.stderr, report.message⟩ }

end Outcome

def Diagnostic.effect (d : Diagnostic) : Effect :=
  ⟨.diagnostic, d.message ++ " " ++ Report.place d.position.line (some d.position.column)⟩

def runTree (host : Host σ) (source : String) (limit : Nat) (tree : Node) (m : Machine σ) :
    Outcome σ :=
  match Eval.value host limit tree 0 m with
  | .ok value m => ⟨.ok value, m⟩
  | .error fault m =>
      match Report.ofFault host.functionText source m fault with
      | .ok report => .failed m report
      | .error escaped => ⟨.error (.escape escaped), m⟩

/-- Runs a program that nests no deeper than `limit`. -/
def run (host : Host σ) (given : Bindings) (source : String) (state : σ)
    (limit : Nat := nestingLimit) : Outcome σ :=
  let m : Machine σ := { scopes := #[{ bindings := rootBindings host given }], host := state }
  match tokenize source with
  | .error e => .failed m (.ofSourceError source e)
  | .ok layout =>
      let m := { m with effects := layout.diagnostics.map Diagnostic.effect }
      match parseTokens limit layout.tokens.toList with
      | .error e => .failed m (.ofSourceError source e)
      | .ok tree => runTree host source limit tree m

/-- The value of a program, and the root scope and host state it leaves. With a scope given, that
scope is the root and nothing else is bound; otherwise the root binds the builtin functions. -/
def interpret (host : Host σ) (given : Option Scope) (source : String) (state : σ)
    (limit : Nat := nestingLimit) : Except Failure Value × Scope × σ :=
  let root := given.getD { bindings := Builtin.bindings }
  match parse source limit with
  | .error e => (.error (.source e), root, state)
  | .ok tree =>
      match Machine.start root state with
      | .error fault => (.error (.fault fault), root, state)
      | .ok m =>
          let rootOf (m : Machine σ) : Scope := m.scopes[0]?.getD root
          match Eval.value host limit tree 0 m with
          | .ok value m => (.ok value, rootOf m, m.host)
          | .error fault m => (.error (.fault fault), rootOf m, m.host)

end Pseudocode
