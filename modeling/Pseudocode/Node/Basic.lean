import Pseudocode.Position

/-!
# Program trees

A program is one tree. Operators are calls of two arguments. Locations are kept
where a run may have to point into the source, at variables and calls, and are no
part of what a tree means: `Node.same` looks past them.
-/
namespace Pseudocode

inductive Literal where
  | number (value : Float)
  | text (content : String)
  | boolean (value : Bool)
  deriving DecidableEq, Repr

/-- The number that a boolean counts as. -/
def Literal.numberOf (b : Bool) : Float := if b then 1.0 else 0.0

/-- Equality of values: numbers by value, so that both zeros are equal and an undefined number
differs from itself, and booleans count as the numbers one and zero. -/
def Literal.same : Literal → Literal → Bool
  | number x, number y => x == y
  | number x, boolean b => x == numberOf b
  | boolean b, number x => numberOf b == x
  | boolean a, boolean b => a == b
  | text s, text t => s == t
  | _, _ => false

inductive Node where
  /-- Statements run in a scope of their own. -/
  | block (children : List Node)
  /-- A parenthesised list, run in the scope around it. -/
  | list (children : List Node)
  | literal (value : Literal)
  | var (name : String) (location : Option Location)
  | assign (name : String) (value : Node)
  | call (name : String) (args : List Node) (location : Option Location)
  /-- A tree that is kept for later. -/
  | lambda (body : Node)
  deriving Repr

namespace Node

/-- Where a run points to while it is at this node. -/
def location : Node → Option Location
  | var _ p | call _ _ p => p
  | _ => none

/-- The node's sort, as traces name it. -/
def sort : Node → String
  | block _ => "Block"
  | list _ => "List"
  | literal _ => "Value"
  | var _ _ => "Var"
  | assign _ _ => "Assign"
  | call _ _ _ => "Call"
  | lambda _ => "Lambda"

mutual

/-- Equality of trees up to locations. -/
def same : Node → Node → Bool
  | block as, block bs => sameAll as bs
  | list as, list bs => sameAll as bs
  | literal a, literal b => a.same b
  | var a _, var b _ => a == b
  | assign a v, assign b w => a == b && same v w
  | call a as _, call b bs _ => a == b && sameAll as bs
  | lambda a, lambda b => same a b
  | _, _ => false

def sameAll : List Node → List Node → Bool
  | [], [] => true
  | a :: as, b :: bs => same a b && sameAll as bs
  | _, _ => false

end

mutual

/-- The number of nodes on the longest way down. -/
def height : Node → Nat
  | block children | list children | call _ children _ => heightAll children + 1
  | literal _ | var _ _ => 1
  | assign _ value => height value + 1
  | lambda body => height body + 1

def heightAll : List Node → Nat
  | [] => 0
  | n :: ns => max (height n) (heightAll ns)

end

theorem height_pos (n : Node) : 0 < n.height := by
  cases n <;> simp [height]

end Node

/-- A stand-in for the nesting that the machine has room for. What depends on it is stated for
every limit. -/
def nestingLimit : Nat := 1000

end Pseudocode
