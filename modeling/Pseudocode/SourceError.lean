import Pseudocode.Text.Quoted
import Pseudocode.Token

/-!
# Errors in a source text

Everything that keeps a text from becoming a tree. Each error knows the token or
the place that it is reported at.
-/
namespace Pseudocode

/-- Why a text has no tree. -/
inductive SourceError where
  /-- A quote without a partner. -/
  | unterminatedText (position : Position)
  /-- A stream without tokens. -/
  | noTokens
  /-- A token where the program, or the group it stands in, cannot go on. -/
  | stray (token : Token)
  /-- A group whose closer is missing. -/
  | neverClosed (opener : Token)
  /-- A name at the very end of the stream. -/
  | nothingAfterName (name : String) (word : Token)
  | nothingAfterArrow (name : String) (arrow : Token)
  | noLeftOperand (operation : String) (operator : Token)
  | noRightOperand (operation : String) (operator : Token)
  | noLambdaBody (word : Token)
  /-- An arrow that does not follow a name. -/
  | arrowWithoutName (arrow : Token)
  /-- More nesting than the limit allows. -/
  | tooDeep
  deriving DecidableEq, Repr

/-- A token in the words of an error message. -/
def Token.describe (t : Token) : String :=
  match t.kind with
  | .blockClose => "end of block"
  | .argumentsClose => "')'"
  | .operation name => Text.quoted name
  | .identifier name => Text.quoted name
  | .arrow => "StorageArrow"
  | .less => "LessThan"
  | .argumentsOpen => "ArgsOpen"
  | .blockOpen _ => "BlockOpen"
  | .lambda => "LambdaStart"
  | .text _ => "StringLiteral"
  | .number _ => "Number"

namespace SourceError

/-- The stage that found the error, as reports name it. -/
def kind : SourceError → String
  | unterminatedText _ => "LexError"
  | tooDeep => "RecursionError"
  | _ => "ParseError"

def message : SourceError → String
  | unterminatedText _ => "unterminated string literal"
  | noTokens => "no output"
  | stray token => token.describe ++ " closes a block that was never opened"
  | neverClosed _ => "block was never closed"
  | nothingAfterName name _ => "something's gotta follow identifier " ++ Text.quoted name
  | nothingAfterArrow name _ => "nothing after the arrow assigning " ++ Text.quoted name
  | noLeftOperand operation _ => Text.quoted operation ++ " has no left operand"
  | noRightOperand operation _ => Text.quoted operation ++ " has no right operand"
  | noLambdaBody _ => "LAMBDA has no body"
  | arrowWithoutName _ => "arrow has no identifier to assign to"
  | tooDeep => "program nests too deeply"

/-- Where it is wrong, as far as that is known. -/
def location : SourceError → Location
  | unterminatedText p => .ofPosition p
  | noTokens | tooDeep => {}
  | stray t | neverClosed t | nothingAfterName _ t | nothingAfterArrow _ t | noLeftOperand _ t
  | noRightOperand _ t | noLambdaBody t | arrowWithoutName t => t.location

end SourceError

end Pseudocode
