import Pseudocode.Evaluation.Machine

/-!
# Hosts

A host embeds the language in a program. It may show text and supply input through
a channel, and it may offer functions of its own. A host function sees its arguments
and the host's state; of the run it can only ask that a value be forced, and it goes
on with the value that comes back, or with the fault.
-/
namespace Pseudocode

/-- What a host function does with its call. -/
inductive Reply (σ : Type) where
  | answer (value : Value) (state : σ)
  | fail (fault : Fault) (state : σ)
  /-- Has a value forced below a scope, the root unless another is named, and goes on whether or
  not this ends in a fault. -/
  | force (value : Value) (state : σ) (resume : Except Fault Value → σ → Reply σ)
      (scope : Int := 0)

/-- Has a value forced and goes on with what comes of it. A fault is passed on. -/
def Reply.forceThen (value : Value) (state : σ) (next : Value → σ → Reply σ) (scope : Int := 0) :
    Reply σ :=
  .force value state (fun
    | .ok result, state => next result state
    | .error fault, state => .fail fault state) scope

inductive Answer where
  | text (content : String)
  | integer (value : Int)
  deriving DecidableEq, Repr

def Answer.content : Answer → String
  | text content => content
  | integer value => toString value

structure Channel (σ : Type) where
  display : String → σ → Except Fault Unit × σ
  input : String → σ → Except Fault Answer × σ

/-- Has a text displayed, if there is a channel for it. -/
def Channel.displayOn (channel : Option (Channel σ)) (text : String) (state : σ) :
    Except Fault Unit × σ :=
  match channel with
  | some channel => channel.display text state
  | none => (.ok (), state)

/-- An embedding of the language. -/
structure Host (σ : Type) where
  channel : Option (Channel σ)
  /-- The functions that programs find in the root scope, in order. -/
  functions : List String
  call : String → List Value → σ → Reply σ
  /-- How reports show a function inside a value that has no printed form. -/
  functionText : Function → Except Fault String := fun f => .ok ("<function " ++ f.label ++ ">")

def Host.none : Host σ where
  channel := Option.none
  functions := []
  call _ _ state := .fail .invalidArguments state

def Host.silent : Host σ where
  channel := some
    { display := fun _ state => (.ok (), state)
      input := fun _ state => (.error (.declined "this host has no input channel"), state) }
  functions := []
  call _ _ state := .fail .invalidArguments state

/-- A way to carry out evaluation in a monad. All that is done to the state of a run is done in
steps, and the work of a builtin function is a step inside its call. -/
class Manner (σ : outParam Type) (M : Type → Type) where
  step : {α : Type} → Eval σ α → M α
  inside : {α : Type} → Activation → Eval σ α → M α
  attempt : {α : Type} → M α → M (Except Fault α)

instance : Manner σ (Eval σ) where
  step c := c
  inside _ c := c
  attempt := Eval.attempt

open Manner in
/-- Runs a reply to its end, forcing values as it asks. -/
def Reply.run {M : Type → Type} [Monad M] [Manner σ M] (force : Int → Value → M Value) :
    Reply σ → M Value
  | answer value state => do
      step (Eval.setHost state)
      return value
  | fail fault state => do
      step (Eval.setHost state)
      step (throw fault)
  | .force value state resume scope => do
      step (Eval.setHost state)
      let result ← attempt (force scope value)
      (resume result (← step Eval.hostState)).run force

end Pseudocode
