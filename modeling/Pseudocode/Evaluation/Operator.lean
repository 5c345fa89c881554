import Pseudocode.Value.Basic

/-!
# Operators

An operator is a list of candidates, each of which asks for operands of one shape.
The first candidate whose shape all arguments have is applied. When there is none
the call still succeeds: its value is a text that names the operator, the kinds of
the arguments and the shapes that would have done.
-/
namespace Pseudocode

abbrev Shape.Carrier : Shape → Type
  | number => Float
  | text => String
  | boolean => Bool

def Shape.value : (shape : Shape) → shape.Carrier → Value
  | number, x => .number x
  | text, s => .text s
  | boolean, b => .boolean b

def Shape.ofName? : String → Option Shape
  | "number" => some number
  | "text" => some text
  | "boolean" => some boolean
  | _ => none

/-- A value as an operand. A number never serves as a text or a boolean, nor the other way round. -/
def Shape.expect (shape : Shape) (v : Value) : Except Fault shape.Carrier :=
  match shape, v with
  | number, .number x => .ok x
  | text, .text s => .ok s
  | boolean, .boolean b => .ok b
  | shape, v => do throw (.mismatch (.shape shape (← v.kind)))

abbrev Operands (α : Type) (count : Nat) := { operands : List α // operands.length = count }

def Operands.one (f : α → β) : Operands α 1 → β
  | ⟨[a], _⟩ => f a

def Operands.two (f : α → α → β) : Operands α 2 → β
  | ⟨[a, b], _⟩ => f a b

def Shape.expectAll (shape : Shape) :
    (args : List Value) → Except Fault (Operands shape.Carrier args.length)
  | [] => .ok ⟨[], rfl⟩
  | v :: vs => do
      let first ← shape.expect v
      let rest ← shape.expectAll vs
      return ⟨first :: rest.val, congrArg (· + 1) rest.property⟩

def Shape.operands (shape : Shape) (count : Nat) (args : List Value) :
    Except Fault (Operands shape.Carrier count) :=
  if h : args.length = count then h ▸ shape.expectAll args
  else .error (.mismatch (.count count args.length))

/-- A given number of values of a shape given by name, as values again. -/
def operandsNamed (name : String) (count : Int) (args : List Value) : Except Fault (List Value) :=
  if args.length ≠ count then .error (.mismatch (.count count args.length))
  else
    match Shape.ofName? name with
    | some shape => do return (← shape.expectAll args).val.map shape.value
    | none => .error (.unknownShape name)

structure Candidate (arity : Nat) where
  shape : Shape
  apply : Operands shape.Carrier arity → Value

/-- The value of the first candidate that takes the arguments. -/
def firstMatch? (args : List Value) : List (Candidate arity) → Except Fault (Option Value)
  | [] => .ok none
  | candidate :: rest =>
      match candidate.shape.operands arity args with
      | .ok operands => .ok (some (candidate.apply operands))
      | .error (.mismatch _) => firstMatch? args rest
      | .error fault => .error fault

/-- A shape as the text of a failed call shows it. -/
def Shape.describe (arity : Nat) (shape : Shape) : String :=
  "(" ++ String.intercalate ", " (List.replicate arity shape.kind.name) ++ ")"

def dispatch (name : String) (candidates : List (Candidate arity)) (args : List Value) :
    Except Fault Value := do
  match ← firstMatch? args candidates with
  | some value => return value
  | none =>
      let kinds ← args.mapM Value.kind
      let got := String.intercalate ", " (kinds.map Kind.name)
      let expected := String.intercalate " or " (candidates.map (·.shape.describe arity))
      return .text s!"cannot apply {name} to ({got}); expected {expected}"

namespace Operator

def arity : Operator → Nat
  | not => 1
  | _ => 2

def onNumbers (f : Float → Float → Value) : Candidate 2 := ⟨.number, Operands.two f⟩

def onBooleans (f : Bool → Bool → Value) : Candidate 2 := ⟨.boolean, Operands.two f⟩

def onTexts (f : String → String → Value) : Candidate 2 := ⟨.text, Operands.two f⟩

/-- The ways to apply an operator, in the order in which they are tried. -/
def candidates : (operator : Operator) → List (Candidate operator.arity)
  | add => [onNumbers fun a b => .number (a + b), onTexts fun a b => .text (a ++ b)]
  | subtract => [onNumbers fun a b => .number (a - b)]
  | multiply => [onNumbers fun a b => .number (a * b)]
  | divide => [onNumbers fun a b => .number (a / b)]
  | power => [onNumbers fun a b => .number (Number.power a b)]
  | modulo => [onNumbers fun a b => .number (Number.remainder a b)]
  | greater => [onNumbers fun a b => .boolean (b < a)]
  | less => [onNumbers fun a b => .boolean (a < b)]
  | equal =>
      [onNumbers fun a b => .boolean (a == b), onBooleans fun a b => .boolean (a == b),
        onTexts fun a b => .boolean (a == b)]
  | and => [onBooleans fun a b => .boolean (a && b)]
  | or => [onBooleans fun a b => .boolean (a || b)]
  | not => [⟨.boolean, Operands.one fun a => .boolean !a⟩]

def apply (operator : Operator) (args : List Value) : Except Fault Value :=
  dispatch operator.name operator.candidates args

end Operator

end Pseudocode
