import Pseudocode.Fault
import Pseudocode.Node.Basic
import Pseudocode.Number

/-!
# Values

What a program computes with: literals, lists, trees kept for later, and functions.
A host may also hand in values that the language has no kind for: integers, nothing
at all, tuples and objects of its own. `Value.normalize` turns the first three into
values of the language; an object stays what it is.

The classes of a host may be derived from those of literals and of lists. Most of the
language takes their objects for what they are derived from; where an exact type is
asked for, they are objects of the host.
-/
namespace Pseudocode

inductive Operator where
  | add
  | subtract
  | multiply
  | divide
  | power
  | modulo
  | greater
  | less
  | equal
  | and
  | or
  | not
  deriving DecidableEq, Repr

inductive Builtin where
  | operator (operator : Operator)
  | display
  | input
  deriving DecidableEq, Repr

inductive Function where
  | builtin (builtin : Builtin)
  /-- A function of the host, which it knows by name. -/
  | host (name : String)
  deriving DecidableEq, Repr

/-- An object of the host: the name of its type and its text in reports, if it has one. -/
structure Foreign where
  typeName : String
  shown : Except Fault String
  deriving Repr

/-- Objects are told apart by their types and their texts. -/
def Foreign.same (a b : Foreign) : Bool :=
  a.typeName == b.typeName &&
    match a.shown, b.shown with
    | .ok s, .ok t => s == t
    | .error f, .error g => f == g
    | _, _ => false

inductive Value where
  | literal (value : Literal)
  | list (items : List Value)
  | lambda (body : Node)
  | function (function : Function)
  | integer (value : Int)
  | nothing
  | tuple (items : List Value)
  | foreign (object : Foreign)
  /-- A literal that is an object of the host. -/
  | derived (value : Literal) (object : Foreign)
  /-- A list that is an object of the host. -/
  | derivedList (items : List Value) (object : Foreign)
  deriving Repr

def Literal.kind : Literal → Kind
  | number _ => .number
  | text _ => .text
  | boolean _ => .boolean

def Operator.name : Operator → String
  | add => "+"
  | subtract => "-"
  | multiply => "*"
  | divide => "/"
  | power => "^"
  | modulo => "MOD"
  | greater => ">"
  | less => "<"
  | equal => "="
  | and => "AND"
  | or => "OR"
  | not => "NOT"

def Builtin.name : Builtin → String
  | operator o => o.name
  | display => "DISPLAY"
  | input => "INPUT"

def Builtin.label : Builtin → String
  | operator .add => "_add"
  | operator .subtract => "_sub"
  | operator .multiply => "_mul"
  | operator .divide => "_div"
  | operator .power => "_pow"
  | operator .modulo => "_mod"
  | operator .greater => "_gt"
  | operator .less => "_lt"
  | operator .equal => "_eq"
  | operator .and => "_and"
  | operator .or => "_or"
  | operator .not => "_not"
  | display => "_display"
  | input => "_input"

/-- A function as printed values show it. -/
def Function.label : Function → String
  | builtin b => b.label
  | host name => name

namespace Value

@[match_pattern] abbrev number (x : Float) : Value := literal (.number x)

@[match_pattern] abbrev text (s : String) : Value := literal (.text s)

@[match_pattern] abbrev boolean (b : Bool) : Value := literal (.boolean b)

/-- The kind of a value, if the language has one for it. -/
def kind? : Value → Option Kind
  | literal l | derived l _ => some l.kind
  | list _ | derivedList _ _ => some .list
  | lambda _ => some .lambda
  | function _ => some .function
  | integer _ | nothing | tuple _ | foreign _ => none

/-- A literal can be read back from a variable; other values cannot. -/
def isLiteral : Value → Bool
  | literal _ | derived _ _ => true
  | _ => false

/-- The type of a value, as traces and reports on foreign values name it. -/
def typeName : Value → String
  | number _ => "float"
  | text _ => "str"
  | boolean _ => "bool"
  | list _ => "list"
  | lambda _ => "Deferred"
  | function _ => "method"
  | integer _ => "int"
  | nothing => "NoneType"
  | tuple _ => "tuple"
  | foreign object | derived _ object | derivedList _ object => object.typeName

/-- A sequence of exactly one value is that value. -/
def collapse : List Value → Value
  | [v] => v
  | vs => list vs

/-- The arguments that a value stands for: the items of a list, otherwise the value itself. -/
def arguments : Value → List Value
  | list items | derivedList items _ => items
  | v => [v]

mutual

/-- Equality of values. Numbers, integers and booleans are compared by their exact value, trees up
to locations. -/
def same : Value → Value → Bool
  | literal a, literal b | literal a, derived b _ | derived a _, literal b
  | derived a _, derived b _ => a.same b
  | integer n, integer m => n == m
  | integer n, number x | number x, integer n | integer n, derived (.number x) _
  | derived (.number x) _, integer n => Number.toInt? x == some n
  | integer n, boolean b | boolean b, integer n => n == b.toInt
  | list as, list bs | list as, derivedList bs _ | derivedList as _, list bs
  | derivedList as _, derivedList bs _ => sameAll as bs
  | tuple as, tuple bs => sameAll as bs
  | lambda a, lambda b => a.same b
  | function f, function g => f == g
  | nothing, nothing => true
  | foreign a, foreign b => a.same b
  | _, _ => false

def sameAll : List Value → List Value → Bool
  | [], [] => true
  | a :: as, b :: bs => same a b && sameAll as bs
  | _, _ => false

end

/-- The kind of a value; values without one are not accepted. -/
def kind (v : Value) : Except Fault Kind :=
  match v.kind? with
  | some kind => .ok kind
  | none => .error .invalidArguments

/-- The items of a value: of a list or a tuple its own, of a text its characters. An object of the
host is asked by key and knows none. -/
def items : Value → Except Fault (List Value)
  | list items | tuple items | derivedList items _ => .ok items
  | text content | derived (.text content) _ =>
      .ok (content.toList.map fun c => text (String.singleton c))
  | foreign _ => .error .missingKey
  | literal _ | derived _ _ | lambda _ | function _ | integer _ | nothing =>
      .error .invalidArguments

end Value

end Pseudocode
