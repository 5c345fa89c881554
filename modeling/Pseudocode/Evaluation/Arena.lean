import Pseudocode.Scope

/-!
# Arenas

The scopes of a run are kept in the order in which they were opened and are never
removed. A scope is known by its index, its handle; the root has handle zero, and
every other scope lies inside one that was opened before it. A handle below zero
counts back from the latest scope, but nothing can be opened below it.
-/
namespace Pseudocode

abbrev Arena := Array Scope

namespace Arena

def index? (scopes : Arena) (handle : Int) : Option Nat :=
  let index := if handle < 0 then scopes.size + handle else handle
  if 0 ≤ index ∧ index < scopes.size then some index.toNat else none

def scope? (scopes : Arena) (handle : Int) : Option Scope :=
  (scopes.index? handle).bind (scopes[·]?)

/-- Looks for a name in a scope, then in its parent, and so on for at most `steps` scopes. -/
def searchFrom (scopes : Arena) (name : String) : (steps : Nat) → (handle : Int) →
    Except Fault Value
  | 0, _ => .error (.unknownName name)
  | steps + 1, handle =>
      match scopes.scope? handle with
      | none => .error .noScope
      | some scope =>
          match scope.bindings.get? name, scope.parent with
          | some value, _ => .ok value
          | none, some parent => searchFrom scopes name steps parent
          | none, none => .error (.unknownName name)

/-- The value of a name in a scope or in the nearest scope around it that binds the name. No way
outwards is longer than the arena. -/
def fetch (scopes : Arena) (handle : Int) (name : String) : Except Fault Value :=
  searchFrom scopes name (scopes.size + 1) handle

/-- Binds a name in a scope itself, never in one around it. -/
def assign (scopes : Arena) (handle : Int) (name : String) (value : Value) : Except Fault Arena :=
  match scopes.index? handle with
  | some index => .ok (scopes.modify index (·.bind name value))
  | none => .error .noScope

/-- Opens a scope inside another one; its handle is the size of the arena before. -/
def openScope (scopes : Arena) (parent : Int) : Except Fault Arena :=
  if 0 ≤ parent ∧ parent < scopes.size then .ok (scopes.push { parent := some parent })
  else .error (.noParent parent)

end Arena

end Pseudocode
