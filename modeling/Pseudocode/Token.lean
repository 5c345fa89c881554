import Pseudocode.Decimal.Reader
import Pseudocode.Position

/-!
# Tokens

The stream that trees are built from. Blocks are bracketed by tokens of their own,
which need no counterpart in the source text: a statement opens and closes one, and
so does the right-hand side of an arrow.
-/
namespace Pseudocode

inductive Token.Kind where
  | arrow
  | less
  | argumentsOpen
  | argumentsClose
  /-- A block is braced when braces stand around it in the source. -/
  | blockOpen (braced : Bool)
  | blockClose
  | lambda
  | operation (name : String)
  | text (content : String)
  | number (value : Float)
  | identifier (name : String)
  deriving DecidableEq, Repr

structure Token where
  kind : Token.Kind
  location : Location
  deriving DecidableEq, Repr

/-- Words that stand between two operands. -/
def Token.operatorWords : List String := ["MOD", "AND", "OR"]

/-- The token of a word. A word that starts with a digit and can be read as a numeral is a number;
underscores keep it a name. -/
def Token.Kind.ofWord (word : List Char) : Token.Kind :=
  let name := String.ofList word
  if name ∈ Token.operatorWords then .operation name
  else if name = "LAMBDA" then .lambda
  else if word.head?.any Text.isDigit && !word.contains '_' then
    match Decimal.readNumeral? word with
    | some numeral => .number numeral.toFloat
    | none => .identifier name
  else .identifier name

end Pseudocode
