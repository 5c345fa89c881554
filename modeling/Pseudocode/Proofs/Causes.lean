import Pseudocode.Proofs.Subterms
import Pseudocode.Proofs.Triples
import Pseudocode.Proofs.UnknownNames

/-!
# What a report points at

Names that are unknown are reported wherever the run has looked last. Other faults are
reported where they come of: a variable that holds no literal is looked at just before it
is read, and a call is looked at again when its arguments have been evaluated, before its
function is called or refused. So the report points at the variable or at the call, at the
name that stands there in the source text.

This is so with builtin functions only. They call nothing back, so that at most one call
goes on when a fault is raised, and it is the call that the report points at. That call is
never an operator between two operands: these names are no words that a program could
bind, and their functions answer on any data.
-/
namespace Pseudocode

/-- The variable or the call that a fault comes of, by its name and its location, when the run ends
with these scopes and calls. -/
inductive Fault.ComesOf (host : Host σ) (trees : List Node) (scopes : Arena)
    (calls : List Activation) : Fault → String → Option Location → Prop
  /-- A variable was read that does not hold a literal. -/
  | read {name : String} {location : Option Location} {scope : Int} {v : Value} {kind : Kind} :
      .var name location ∈ trees → scopes.fetch scope name = .ok v → v.isLiteral = false →
      v.kind = .ok kind → calls = [] →
      ComesOf host trees scopes calls (.unreadable name kind) name location
  /-- A value was called that is not a function. -/
  | rejected {name : String} {args : List Node} {location : Option Location} {scope : Int}
      {v : Value} {kind : Kind} :
      .call name args location ∈ trees → scopes.fetch scope name = .ok v → v.kind = .ok kind →
      kind ≠ .function → calls = [] →
      ComesOf host trees scopes calls (.notCallable name kind) name location
  /-- A function was called and raised the fault, which is of its own kinds or comes from the
  host's channel. -/
  | raised {name : String} {args : List Node} {location : Option Location} {scope : Int}
      {b : Builtin} {values : List Value} {begun ended : Machine σ} {fault : Fault} :
      .call name args location ∈ trees → scopes.fetch scope name = .ok (.function (.builtin b)) →
      b.apply host.channel values begun = .error fault ended →
      calls = [⟨name, values, location⟩] →
      (fault.kind = "CoercionError" ∨ fault.kind = "EvalError" ∨
        ∃ channel ∈ host.channel, channel.Raises fault) →
      ComesOf host trees scopes calls fault name location

namespace Node

/-- A tree that reads or binds a name does not do so with an operator. -/
def Named : Node → Prop
  | var name _ | assign name _ => name ∉ operatorNames
  | _ => True

theorem Shaped.named {n : Node} (h : n.Shaped) : n.Named := by
  cases h with
  | var hname => exact hname.not_mem_operatorNames
  | assign hname _ => exact hname.not_mem_operatorNames
  | _ => trivial

end Node

def Arena.Binds (P : String → Value → Prop) (scopes : Arena) : Prop :=
  ∀ s ∈ scopes, ∀ name v, s.bindings.get? name = some v → P name v

namespace Arena.Binds
variable {P : String → Value → Prop} {scopes : Arena}

theorem opened (h : scopes.Binds P) (parent : Int) :
    Arena.Binds P (scopes.push { parent := some parent }) := by
  intro s hs name v hv
  rcases Array.mem_push.1 hs with hs | rfl
  · exact h s hs name v hv
  · cases hv

theorem bound (h : scopes.Binds P) (index : Nat) {name : String} {v : Value} (hv : P name v) :
    Arena.Binds P (scopes.modify index (·.bind name v)) := by
  intro s hs other w hw
  obtain ⟨i, hi⟩ := Array.mem_iff_getElem?.1 hs
  rw [Array.getElem?_modify] at hi
  split at hi
  · obtain ⟨old, hold, rfl⟩ := Option.map_eq_some_iff.1 hi
    rw [Scope.bind, Bindings.get?_insert] at hw
    split at hw
    · rename_i hsame
      cases hw
      exact hsame ▸ hv
    · exact h old (Array.mem_of_getElem? hold) other w hw
  · exact h s (Array.mem_of_getElem? hi) other w hw

end Arena.Binds

namespace Eval

section
variable {σ α : Type} {host : Host σ} {trees : List Node} {R : α → Prop}

end

section
variable {σ : Type} {host : Host σ} {trees : List Node} (hnamed : ∀ n ∈ trees, n.Named)

include hnamed

end

end Eval

/-- Unless a call goes on, the fault quotes the name that it comes of. -/
theorem Fault.ComesOf.quoted {host : Host σ} {trees : List Node} {scopes : Arena} {fault : Fault}
    {name : String} {location : Option Location}
    (h : fault.ComesOf host trees scopes [] name location) :
    ∃ rest, fault.message = Text.quoted name ++ rest := by
  have hbegins (a b c d : String) : ∃ rest, a ++ b ++ c ++ d = a ++ rest :=
    ⟨b ++ c ++ d, by simp only [String.append_assoc]⟩
  cases h with
  | read => exact hbegins _ _ _ _
  | rejected => exact hbegins _ _ _ _
  | raised _ _ _ hcalls => cases hcalls

end Pseudocode
