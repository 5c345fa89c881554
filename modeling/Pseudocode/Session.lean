import Pseudocode.Evaluation.Basic

/-!
# Sessions

A session works on one arena step by step. A request that ends in a fault leaves what
it has done so far, and the session goes on from there.
-/
namespace Pseudocode

namespace Session

inductive Request where
  | openScope (parent : Int)
  | assign (scope : Int) (name : String) (value : Value)
  | fetch (scope : Int) (name : String)
  | evaluate (tree : Node) (scope : Int)
  | force (value : Value) (scope : Int)
  | call (name : String) (callee : Value) (args : List Value)
  deriving Repr

inductive Response where
  | handle (scope : Nat)
  | value (value : Value)
  | done
  deriving Repr

/-- Carries out a request, to the nesting given. -/
def perform (host : Host σ) (limit : Nat) : Request → Eval σ Response
  | .openScope parent => .handle <$> Eval.openScope parent
  | .assign scope name value => do
      Eval.assign scope name value
      return .done
  | .fetch scope name => .value <$> Eval.fetch scope name
  | .evaluate tree scope => .value <$> Eval.value host limit tree scope
  | .force value scope => .value <$> Eval.force host limit scope value
  | .call name callee args =>
      .value <$> Eval.call host (Eval.force host limit) name callee args none

end Session

def Machine.installBuiltins (m : Machine σ) : Machine σ :=
  { m with
    scopes := m.scopes.modify 0 fun root =>
      { root with bindings := root.bindings.insertAll Builtin.bindings } }

/-- The state after some requests, whether they succeed or not. -/
def Machine.afterRequests (host : Host σ) (limit : Nat) (m : Machine σ)
    (requests : List Session.Request) : Machine σ :=
  requests.foldl (fun m request =>
    match Session.perform host limit request m with
    | .ok _ m | .error _ m => m) m

end Pseudocode
