import Pseudocode.Layout
import Pseudocode.Node.Basic

/-!
# From tokens to trees

The parser takes one token at a time. What is begun and not yet complete lies on a
stack, innermost first; a complete node is delivered to the top of the stack and may
complete it in turn. There is no precedence: an operator takes the node before it in
its group as left operand and the next operand as right operand.

The height of the stack is the nesting of the program, and the parser refuses a
program as soon as its nesting passes a limit.
-/
namespace Pseudocode

namespace Parser

inductive Group where
  | block (braced : Bool)
  | list
  | call (name : String) (location : Location)
  deriving DecidableEq, Repr

/-- The node of a complete group. An implicit block of exactly one node is that node. -/
def Group.node : Group → List Node → Node
  | block true, nodes => .block nodes
  | block false, [node] => node
  | block false, nodes => .block nodes
  | list, nodes => .list nodes
  | call name location, nodes => .call name nodes (some location)

def Group.closer : Group → Token.Kind
  | block _ => .blockClose
  | list | call _ _ => .argumentsClose

inductive Frame where
  /-- A group that was opened, with its nodes so far, the latest first. -/
  | group (group : Group) (opener : Token) (nodes : List Node)
  | assign (name : String) (arrow : Token)
  | operation (name : String) (left : Node) (operator : Token)
  | lambda (word : Token)
  deriving Repr

inductive State where
  /-- The next token starts an operand, operates on the last node or closes a group. -/
  | ready (stack : List Frame)
  /-- A name was read, and the next token decides what it names. -/
  | named (name : String) (word : Token) (stack : List Frame)
  | complete (node : Node)
  deriving Repr

/-- The number of things begun and not complete. -/
def State.depth : State → Nat
  | ready stack | named _ _ stack => stack.length
  | complete _ => 0

/-- Gives a complete node to the innermost frame. -/
def deliver (node : Node) : List Frame → State
  | [] => .complete node
  | .group group opener nodes :: stack => .ready (.group group opener (node :: nodes) :: stack)
  | .assign name _ :: stack => deliver (.assign name node) stack
  | .operation name left operator :: stack =>
      deliver (.call name [left, node] (some operator.location)) stack
  | .lambda _ :: stack => deliver (.lambda node) stack

/-- The error when an operand is due and none can come. -/
def Frame.missing : Frame → SourceError
  | .group _ opener _ => .neverClosed opener
  | .assign name arrow => .nothingAfterArrow name arrow
  | .operation name _ operator => .noRightOperand name operator
  | .lambda word => .noLambdaBody word

def close (token : Token) : List Frame → Except SourceError State
  | [] => .error (.stray token)
  | .group group _ nodes :: stack =>
      if token.kind = group.closer then .ok (deliver (group.node nodes.reverse) stack)
      else .error (.stray token)
  | frame :: _ => .error frame.missing

/-- An operator takes the last node of its group. -/
def operate (name : String) (token : Token) : List Frame → Except SourceError State
  | .group group opener (left :: nodes) :: stack =>
      .ok (.ready (.operation name left token :: .group group opener nodes :: stack))
  | _ => .error (.noLeftOperand name token)

/-- A token when no name is waiting. -/
def read (token : Token) (stack : List Frame) : Except SourceError State :=
  match token.kind with
  | .blockOpen braced => .ok (.ready (.group (.block braced) token [] :: stack))
  | .argumentsOpen => .ok (.ready (.group .list token [] :: stack))
  | .blockClose | .argumentsClose => close token stack
  | .identifier name => .ok (.named name token stack)
  | .text content => .ok (deliver (.literal (.text content)) stack)
  | .number value => .ok (deliver (.literal (.number value)) stack)
  | .operation name => operate name token stack
  | .less => operate "<" token stack
  | .lambda => .ok (.ready (.lambda token :: stack))
  | .arrow => .error (.arrowWithoutName token)

/-- Takes one token, whatever the nesting. -/
def advance (state : State) (token : Token) : Except SourceError State :=
  match state with
  | .complete _ => .error (.stray token)
  | .ready stack => read token stack
  | .named name word stack =>
      match token.kind with
      | .arrow => .ok (.ready (.assign name token :: stack))
      | .argumentsOpen => .ok (.ready (.group (.call name word.location) token [] :: stack))
      | _ =>
          match deliver (.var name (some word.location)) stack with
          | .ready stack => read token stack
          | _ => .error (.stray token)

/-- Takes one token, unless the nesting passes the limit. -/
def step (limit : Nat) (state : State) (token : Token) : Except SourceError State := do
  let state ← advance state token
  if state.depth ≤ limit then .ok state else .error .tooDeep

def finish : State → Except SourceError Node
  | .complete node => .ok node
  | .named name word _ => .error (.nothingAfterName name word)
  | .ready [] => .error .noTokens
  | .ready (frame :: _) => .error frame.missing

end Parser

/-- The tree of a stream of tokens that nests no deeper than `limit`. -/
def parseTokens (limit : Nat) (tokens : List Token) : Except SourceError Node :=
  tokens.foldlM (Parser.step limit) (.ready []) >>= Parser.finish

/-- The tree of a source text that nests no deeper than `limit`. -/
def parse (source : String) (limit : Nat := nestingLimit) : Except SourceError Node := do
  let layout ← tokenize source
  parseTokens limit layout.tokens.toList

end Pseudocode
