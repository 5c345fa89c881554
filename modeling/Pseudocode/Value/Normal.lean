import Pseudocode.Value.Basic

/-!
# Normal values

A value is normal when no integer, no tuple and no absence occurs in it, at any
depth of its lists. Whatever a function answers is brought into this form.
-/
namespace Pseudocode.Value

mutual

/-- The normal form: integers become numbers, tuples lists, and nothing the empty list. -/
def normalize : Value → Except Fault Value
  | nothing => .ok (list [])
  | integer n =>
      match Number.ofInt? n with
      | some x => .ok (number x)
      | none => .error .integerTooLarge
  | tuple items | list items | derivedList items _ => do return list (← normalizeAll items)
  | v@(literal _) | v@(lambda _) | v@(function _) | v@(foreign _) | v@(derived _ _) => .ok v

def normalizeAll : List Value → Except Fault (List Value)
  | [] => .ok []
  | v :: vs => do
      let v ← normalize v
      return v :: (← normalizeAll vs)

end

end Pseudocode.Value
