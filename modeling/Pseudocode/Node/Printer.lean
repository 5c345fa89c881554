import Pseudocode.Node.Basic
import Pseudocode.Number
import Pseudocode.Text.Quoted

/-!
# From trees to text

A printed tree reads back as the same tree. Operators fold from left to right, so
only a right operand that is an operation itself stands in parentheses.
-/
namespace Pseudocode

/-- A literal as it is written in a program. -/
def Literal.render : Literal → List Char
  | number value => (Number.text value).toList
  | text content => '"' :: content.toList ++ ['"']
  | boolean value => if value then "true".toList else "false".toList

/-- A literal as it is shown inside values that have no printed form. -/
def Literal.inspect : Literal → String
  | number value => Number.exactText value
  | text content => Text.quoted content
  | boolean value => if value then "True" else "False"

namespace Node

/-- Names that are written between their two arguments. -/
def operatorNames : List String := ["+", "-", "*", "/", "^", "=", ">", "<", "MOD", "AND", "OR"]

def isOperation : Node → Bool
  | call name [_, _] _ => name ∈ operatorNames
  | _ => false

def enclose (node : Node) (text : List Char) : List Char :=
  if node.isOperation then '(' :: text ++ [')'] else text

/-- The blanks before a line; none for an indent or a level below zero. -/
def margin (indent level : Int) : List Char := List.replicate (indent.toNat * level.toNat) ' '

mutual

/-- A tree as text. Lines after the first are indented by `indent` blanks for each level. -/
def render (indent level : Int) : Node → List Char
  | block [] => ['\x7b', '\x7d']
  | block (n :: ns) =>
      '\x7b' :: renderLines indent (level + 1) (n :: ns) ++ '\n' :: margin indent level ++ ['\x7d']
  | list children => '(' :: renderItems indent level children ++ [')']
  | literal value => value.render
  | var name _ => name.toList
  | assign name value => name.toList ++ " <- ".toList ++ render indent level value
  | call name [left, right] _ =>
      if name ∈ operatorNames then
        render indent level left ++ ' ' :: name.toList ++ ' ' ::
          enclose right (render indent level right)
      else
        name.toList ++ '(' :: render indent level left ++ ", ".toList ++
          render indent level right ++ [')']
  | call name args _ => name.toList ++ '(' :: renderItems indent level args ++ [')']
  | lambda body => "LAMBDA ".toList ++ enclose body (render indent level body)
termination_by n => sizeOf n

def renderItems (indent level : Int) : List Node → List Char
  | [] => []
  | [n] => render indent level n
  | n :: m :: ns => render indent level n ++ ", ".toList ++ renderItems indent level (m :: ns)
termination_by ns => sizeOf ns

def renderLines (indent level : Int) : List Node → List Char
  | [] => []
  | n :: ns => '\n' :: margin indent level ++ render indent level n ++ renderLines indent level ns
termination_by ns => sizeOf ns

end

def text (indent level : Int) (node : Node) : String := String.ofList (node.render indent level)

/-- A program as text, one statement a line. A block of one statement can only come from braces,
and keeps them. -/
def renderProgram (indent : Int) : Node → List Char
  | block [n] => render indent 0 (block [n])
  | block ns => ((ns.map (render indent 0)).intersperse ['\n']).flatten
  | n => render indent 0 n

def programText (indent : Int) (node : Node) : String := String.ofList (node.renderProgram indent)

mutual

/-- A tree as reports show it inside values that have no printed form: its sort and its parts, but
no location. -/
def inspect : Node → String
  | block children => "Block(children=[" ++ String.intercalate ", " (inspectAll children) ++ "])"
  | list children => "List(children=[" ++ String.intercalate ", " (inspectAll children) ++ "])"
  | literal value => "Value(raw=" ++ value.inspect ++ ")"
  | var name _ => "Var(name=" ++ Text.quoted name ++ ")"
  | assign name value => "Assign(name=" ++ Text.quoted name ++ ", value=" ++ inspect value ++ ")"
  | call name args _ =>
      "Call(name=" ++ Text.quoted name ++ ", args=[" ++
        String.intercalate ", " (inspectAll args) ++ "])"
  | lambda body => "Lambda(body=" ++ inspect body ++ ")"

def inspectAll : List Node → List String
  | [] => []
  | n :: ns => inspect n :: inspectAll ns

end

end Node

end Pseudocode
