import Pseudocode.Text.Quoted

/-!
# Faults

Everything that ends a run. A fault is a cause; its words are in `Fault.message`.
-/
namespace Pseudocode

inductive Kind where
  | number
  | text
  | boolean
  | list
  | lambda
  | function
  deriving DecidableEq, Repr

def Kind.name : Kind → String
  | number => "number"
  | text => "text"
  | boolean => "boolean"
  | list => "list"
  | lambda => "lambda"
  | function => "function"

/-- What an operator may ask all its operands to be. -/
inductive Shape where
  | number
  | text
  | boolean
  deriving DecidableEq, Repr

def Shape.kind : Shape → Kind
  | number => .number
  | text => .text
  | boolean => .boolean

inductive Mismatch where
  | count (expected : Int) (got : Nat)
  | shape (expected : Shape) (got : Kind)
  | notDisplayable (kind : Kind)
  | notPrintable (typeName : String)
  | notExportable (kind : Kind)
  | foreignExport (typeName : String)
  deriving DecidableEq, Repr

/-- Why a run ended. -/
inductive Fault where
  | unknownName (name : String)
  | notCallable (name : String) (kind : Kind)
  /-- A variable that holds no literal. -/
  | unreadable (name : String) (kind : Kind)
  | mismatch (cause : Mismatch)
  | tooManyPrompts (count : Nat)
  | noInputChannel
  /-- The host declined, in its own words. -/
  | declined (reason : String)
  /-- A value without a kind, or a function called with arguments that it does not take. -/
  | invalidArguments
  /-- An integer past every finite number. -/
  | integerTooLarge
  /-- An integer or a boolean where a number that may have a fraction is asked for. -/
  | notFractional
  /-- A new scope was asked for below a handle that names none. -/
  | noParent (handle : Int)
  /-- A handle that names no scope. -/
  | noScope
  | rootWithParent
  | unknownShape (name : String)
  | unknownFormat (name : Option String)
  /-- A key that no scope holds. -/
  | missingKey
  /-- The host broke down, in its own words. -/
  | crashed (reason : String)
  /-- The host broke down, and it breaks down in another way when it is asked for its words. -/
  | wordless (instead : Fault)
  /-- The host calls the run off. Nothing on the way out takes this for an error. -/
  | interrupt (name : String)
  /-- More nesting than the limit allows. -/
  | tooDeep
  deriving DecidableEq, Repr

namespace Mismatch

def message : Mismatch → String
  | count expected got => s!"expected {expected} argument(s), got {got}"
  | shape expected got => "expected a " ++ expected.kind.name ++ ", got a " ++ got.name
  | notDisplayable kind => "a " ++ kind.name ++ " can't be displayed"
  | notPrintable typeName => "can't format a " ++ typeName
  | notExportable kind => "a " ++ kind.name ++ " can't be serialized"
  | foreignExport typeName => "can't serialize a " ++ typeName

end Mismatch

namespace Fault

def message : Fault → String
  | unknownName name => "couldn't find variable with identifier " ++ name
  | notCallable name kind => Text.quoted name ++ " is a " ++ kind.name ++ ", not a function"
  | unreadable name kind =>
      Text.quoted name ++ " holds a " ++ kind.name ++
        "; only numbers, text and booleans can be read as variables"
  | mismatch cause => cause.message
  | tooManyPrompts count => s!"INPUT takes at most one prompt, got {count} arguments"
  | noInputChannel => "INPUT needs a host input channel"
  | declined reason | crashed reason => reason
  | invalidArguments => "invalid-args"
  | integerTooLarge => "int too large to convert to float"
  | notFractional => "not a fractional number"
  | noParent handle => s!"no context with handle {handle}"
  | noScope => "list index out of range"
  | rootWithParent => "The root context cannot have a parent."
  | unknownShape name => "unknown shape " ++ Text.quoted name
  | unknownFormat name =>
      "Unsupported serialization format: " ++ (name.map Text.quoted).getD "None"
  | missingKey => "missing key"
  | wordless _ => ""
  | interrupt name => name
  | tooDeep => "program nests too deeply"

/-- The sort of fault, as reports name it. -/
def kind : Fault → String
  | unknownName _ => "UnknownIdentifier"
  | notCallable _ _ => "NotCallable"
  | unreadable _ _ => "UnsupportedVariableKind"
  | mismatch _ => "CoercionError"
  | tooManyPrompts _ | noInputChannel | declined _ => "EvalError"
  | invalidArguments => "TypeError"
  | tooDeep => "RecursionError"
  | integerTooLarge | notFractional | noParent _ | noScope | rootWithParent | unknownShape _
  | unknownFormat _ | missingKey | crashed _ | wordless _ | interrupt _ => "InternalError"

/-- The faults that the language itself knows of. -/
def isHard : Fault → Bool
  | unknownName _ | notCallable _ _ | unreadable _ _ | mismatch _ | tooManyPrompts _
  | noInputChannel | declined _ => true
  | _ => false

end Fault

end Pseudocode
