import Pseudocode.Value.Basic
import Pseudocode.Node.Printer

/-!
# Values as text

Printed values are what people and reports see. Displayed text is the same except
that a text stands without quotes; functions and lambdas have no displayed text.
-/
namespace Pseudocode.Value

/-- The text of a value that has to be a number. Integers and booleans are numbers of another
sort. -/
def numberText : Value → Except Fault String
  | number x => .ok (Number.text x)
  | integer n => .error (if (Number.ofInt? n).isSome then .notFractional else .integerTooLarge)
  | derived (.number x) object =>
      if x.isNaN || x.isInf || (Number.toInt? x).isSome then .ok (Number.text x) else object.shown
  | boolean _ | derived (.boolean _) _ => .error .notFractional
  | text _ | derived (.text _) _ | list _ | derivedList _ _ | lambda _ | function _ | nothing
  | tuple _ | foreign _ => .error .invalidArguments

mutual

/-- The printed form of a value. Only values of the language and functions have one. -/
def print (indent level : Int) : Value → Except Fault String
  | literal value => .ok (String.ofList value.render)
  | list items => do
      return "[" ++ String.intercalate ", " (← printAll indent level items) ++ "]"
  | lambda body =>
      .ok ("LAMBDA " ++ String.ofList (body.enclose (body.render indent level)))
  | function f => .ok ("<function " ++ f.label ++ ">")
  | v@(integer _) | v@nothing | v@(tuple _) | v@(foreign _) | v@(derived _ _)
  | v@(derivedList _ _) => .error (.mismatch (.notPrintable v.typeName))

def printAll (indent level : Int) : List Value → Except Fault (List String)
  | [] => .ok []
  | v :: vs => do
      let first ← print indent level v
      return first :: (← printAll indent level vs)

end

mutual

/-- Refuses a value that is, or holds, something without a displayed text. -/
def ensureDisplayable : Value → Except Fault Unit
  | literal _ | derived _ _ => .ok ()
  | list items | derivedList items _ => ensureAllDisplayable items
  | v@(lambda _) | v@(function _) | v@(integer _) | v@nothing | v@(tuple _) | v@(foreign _) => do
      .error (.mismatch (.notDisplayable (← v.kind)))

def ensureAllDisplayable : List Value → Except Fault Unit
  | [] => .ok ()
  | v :: vs => do
      ensureDisplayable v
      ensureAllDisplayable vs

end

def displayText (v : Value) : Except Fault String := do
  v.ensureDisplayable
  match v with
  | text content | derived (.text content) _ => return content
  | v => v.print 2 0

section
variable (functionText : Function → Except Fault String)

mutual

/-- A value as a report shows it when it has no printed form. -/
def shown : Value → Except Fault String
  | literal l => .ok l.inspect
  | list items => do return "[" ++ String.intercalate ", " (← shownAll items) ++ "]"
  | tuple [item] => do return "(" ++ (← shown item) ++ ",)"
  | tuple items => do return "(" ++ String.intercalate ", " (← shownAll items) ++ ")"
  | integer n => .ok (toString n)
  | nothing => .ok "None"
  | function f => functionText f
  | lambda body => .ok ("Deferred(" ++ body.inspect ++ ")")
  | foreign object | derived _ object | derivedList _ object => object.shown

def shownAll : List Value → Except Fault (List String)
  | [] => .ok []
  | v :: vs => do
      let first ← shown v
      return first :: (← shownAll vs)

end

/-- A value in a report: printed if it can be, otherwise shown. -/
def report (v : Value) : Except Fault String :=
  match v.print 2 0 with
  | .ok printed => .ok printed
  | .error _ => v.shown functionText

end

end Pseudocode.Value
