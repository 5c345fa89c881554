import Pseudocode.Evaluation.Builtin
import Pseudocode.Value.Normal

/-!
# Evaluation

Trees are evaluated in a scope. A block opens a scope of its own; an assignment binds
in the scope it stands in and has no value; a sequence of exactly one value is that
value. A lambda is kept as a tree, without the scope it was written in.

Evaluation is given the depth that it may still go down. Each node takes one, and so
does a lambda that a host function has forced, so the number bounds the nesting of
activations; evaluation that would go deeper ends in `Fault.tooDeep`.
-/
namespace Pseudocode

namespace Eval

/-- The value of a variable, which has to hold a literal. -/
def readVariable (scope : Int) (name : String) : Eval σ Value := do
  let value ← fetch scope name
  if value.isLiteral then return value
  else throw (.unreadable name (← ofExcept value.kind))

def visit (n : Node) (scope : Int) : Eval σ Unit := do
  lookAt n.location
  note (.evaluate n.sort scope)

section
variable {σ : Type} {M : Type → Type} [Monad M] [Manner σ M]

open Manner

def apply (host : Host σ) (force : Int → Value → M Value) (a : Activation) : Function → M Value
  | .builtin b => inside a (b.apply host.channel a.args)
  | .host name => do (host.call name a.args (← step hostState)).run force

/-- Calls a value. The call is left only when the function answers, and its answer is brought into
normal form after that. -/
def call (host : Host σ) (force : Int → Value → M Value) (name : String) (callee : Value)
    (args : List Value) (site : Option Location) : M Value :=
  match callee with
  | .function f => do
      step (note (.call name (args.map Value.typeName)))
      step (enter ⟨name, args, site⟩)
      let value ← apply host force ⟨name, args, site⟩ f
      step leave
      step (ofExcept value.normalize)
  | v => step do throw (.notCallable name (← ofExcept v.kind))

/-- The values of nodes in order, given how one node is evaluated. Assignments leave none. -/
def sequence (evaluate : Node → Int → M (Option Value)) (scope : Int) :
    List Node → M (List Value)
  | [] => return []
  | node :: nodes => do
      let value ← evaluate node scope
      let values ← sequence evaluate scope nodes
      return value.toList ++ values

/-- Runs a lambda in a new scope; any other value is already there. -/
def forceWith (evaluate : Node → Int → M (Option Value)) (scope : Int) : Value → M Value
  | .lambda body => do
      let child ← step (openScope scope)
      return Value.collapse (← evaluate body child).toList
  | v => return v

/-- What one activation of the evaluator does at a node, given how it has other nodes evaluated. An
assignment has no value, and is not looked at itself. -/
def level (host : Host σ) (evaluate : Node → Int → M (Option Value)) (n : Node) (scope : Int) :
    M (Option Value) :=
  match n with
  | .assign name value => do
      let value := Value.collapse (← evaluate value scope).toList
      step (note (.assign name scope value.typeName))
      step (assign scope name value)
      return none
  | .block children => do
      step (visit n scope)
      let child ← step (openScope scope)
      return some (.collapse (← sequence evaluate child children))
  | .list children => do
      step (visit n scope)
      return some (.collapse (← sequence evaluate scope children))
  | .literal value => do
      step (visit n scope)
      return some (.literal value)
  | .var name _ => do
      step (visit n scope)
      return some (← step (readVariable scope name))
  | .call name args site => do
      step (visit n scope)
      let args := (Value.collapse (← sequence evaluate scope args)).arguments
      let callee ← step (fetch scope name)
      step (lookAt site)
      return some (← call host (forceWith evaluate) name callee args site)
  | .lambda body => do
      step (visit n scope)
      return some (.lambda body)

/-- Evaluation that goes down so many activations and then does something else. -/
def nodeOver (host : Host σ) (bottom : Node → Int → M (Option Value)) :
    (depth : Nat) → Node → Int → M (Option Value)
  | 0 => bottom
  | depth + 1 => level host (nodeOver host bottom depth)

end

def node (host : Host σ) : (depth : Nat) → Node → Int → Eval σ (Option Value)
  | 0 => fun _ _ => throw .tooDeep
  | depth + 1 => level host (node host depth)

def value (host : Host σ) (depth : Nat) (n : Node) (scope : Int) : Eval σ Value := do
  return Value.collapse (← node host depth n scope).toList

def force (host : Host σ) (depth : Nat) (scope : Int) : Value → Eval σ Value :=
  forceWith (node host depth) scope

end Eval

end Pseudocode
