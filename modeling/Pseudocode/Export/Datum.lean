import Pseudocode.Value.Basic

/-!
# Data for export

Plain data that any format can hold. Whole numbers are exported as integers. Numbers
that are not finite have no form outside the language and are exported as their text.
-/
namespace Pseudocode

inductive Datum where
  | boolean (value : Bool)
  | text (content : String)
  | integer (value : Int)
  | real (value : Float)
  | list (items : List Datum)
  deriving Repr

def Literal.toDatum : Literal → Datum
  | number x =>
      match Number.toInt? x with
      | some n => .integer n
      | none => if x.isNaN || x.isInf then .text (Number.text x) else .real x
  | text content => .text content
  | boolean value => .boolean value

namespace Value

mutual

/-- A value as plain data. Functions, lambdas and what is foreign to the language are none. -/
def toDatum : Value → Except Fault Datum
  | literal l | derived l _ => .ok l.toDatum
  | list items | derivedList items _ => do return .list (← toData items)
  | lambda _ => .error (.mismatch (.notExportable .lambda))
  | function _ => .error (.mismatch (.notExportable .function))
  | v@(integer _) | v@nothing | v@(tuple _) | v@(foreign _) =>
      .error (.mismatch (.foreignExport v.typeName))

def toData : List Value → Except Fault (List Datum)
  | [] => .ok []
  | v :: vs => do
      let first ← toDatum v
      return first :: (← toData vs)

end

end Value

end Pseudocode
