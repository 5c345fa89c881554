import Pseudocode.Evaluation.Arena

/-!
# The state of a run

A run changes one state and may end in a fault at any time; what it has done until
then stays done. The host's own state `σ` is part of it.
-/
namespace Pseudocode

inductive Topic where
  | stdout
  | stderr
  | diagnostic
  deriving DecidableEq, Repr

def Topic.name : Topic → String
  | stdout => "stdout"
  | stderr => "stderr"
  | diagnostic => "diagnostic"

structure Effect where
  topic : Topic
  message : String
  deriving DecidableEq, Repr

/-- A call that has begun and not returned. -/
structure Activation where
  name : String
  args : List Value
  site : Option Location
  deriving Repr

inductive TraceEvent where
  | evaluate (sort : String) (scope : Int)
  | openScope (scope : Nat) (parent : Int)
  | assign (name : String) (scope : Int) (typeName : String)
  | call (name : String) (typeNames : List String)
  deriving DecidableEq, Repr

def TraceEvent.line : TraceEvent → String
  | evaluate sort scope => s!"[DBG] eval {sort} in {scope}\n"
  | openScope scope parent => s!"[DBG] new context {scope} parent {parent}\n"
  | assign name scope typeName => s!"[DBG] assign {name} in {scope} <- {typeName}\n"
  | call name typeNames =>
      let count := typeNames.length
      let list := String.intercalate ", " (typeNames.map Text.quoted)
      s!"[DBG] call {name} argc {count} [{list}]\n"

/-- The state of a run with a host of state `σ`. -/
structure Machine (σ : Type) where
  scopes : Arena
  effects : Array Effect := #[]
  /-- Calls that have begun and not returned, the latest first. -/
  calls : List Activation := []
  /-- Where the node stands that was looked at last. -/
  focus : Option Location := none
  trace : Array TraceEvent := #[]
  host : σ

abbrev Eval (σ : Type) := EStateM Fault (Machine σ)

namespace Machine

def start (root : Scope) (host : σ) : Except Fault (Machine σ) :=
  match root.parent with
  | none => .ok { scopes := #[root], host }
  | some _ => .error .rootWithParent

end Machine

namespace Eval

/-- A computation that does not depend on the state. -/
def ofExcept : Except Fault α → Eval σ α
  | .ok a => pure a
  | .error fault => throw fault

def note (event : TraceEvent) : Eval σ Unit :=
  modify fun m => { m with trace := m.trace.push event }

def emit (topic : Topic) (message : String) : Eval σ Unit :=
  modify fun m => { m with effects := m.effects.push ⟨topic, message⟩ }

/-- Remembers where the run is. -/
def lookAt (location : Option Location) : Eval σ Unit :=
  modify fun m => { m with focus := location }

def openScope (parent : Int) : Eval σ Nat := do
  let m ← get
  let scopes ← ofExcept (m.scopes.openScope parent)
  set { m with scopes }
  note (.openScope m.scopes.size parent)
  return m.scopes.size

def fetch (scope : Int) (name : String) : Eval σ Value := do
  ofExcept ((← get).scopes.fetch scope name)

def assign (scope : Int) (name : String) (value : Value) : Eval σ Unit := do
  let m ← get
  let scopes ← ofExcept (m.scopes.assign scope name value)
  set { m with scopes }

def enter (activation : Activation) : Eval σ Unit :=
  modify fun m => { m with calls := activation :: m.calls }

def leave : Eval σ Unit := modify fun m => { m with calls := m.calls.tail }

def hostState : Eval σ σ := do return (← get).host

def setHost (state : σ) : Eval σ Unit := modify fun m => { m with host := state }

/-- Has the host do something, which may end in a fault. -/
def ofHost (f : σ → Except Fault α × σ) : Eval σ α := do
  let (result, state) := f (← hostState)
  setHost state
  ofExcept result

theorem ofHost_map_eq (f : σ → Except Fault α × σ) (g : α → β) (m : Machine σ) :
    (do return g (← ofHost f) : Eval σ β) m =
      match f m.host with
      | (.ok a, host) => .ok (g a) { m with host }
      | (.error fault, host) => .error fault { m with host } := by
  have hresult (r : Except Fault α × σ) :
      (do setHost r.2; return g (← ofExcept r.1) : Eval σ β) m =
        match r with
        | (.ok a, host) => .ok (g a) { m with host }
        | (.error fault, host) => .error fault { m with host } := by
    obtain ⟨_ | _, _⟩ := r <;> rfl
  exact hresult (f m.host)

/-- Runs a computation and goes on whether or not it ends in a fault. What it did stays done. -/
def attempt (c : Eval σ α) : Eval σ (Except Fault α) := fun m =>
  match c m with
  | .ok a m => .ok (.ok a) m
  | .error fault m => .ok (.error fault) m

end Eval

end Pseudocode
