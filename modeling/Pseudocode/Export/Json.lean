import Pseudocode.Export.Datum
import Pseudocode.Text.Quoted

/-!
# JSON

Text is written as it is, except for quotes, backslashes and control characters. A
list stands on one line, or with each item on a line of its own.
-/
namespace Pseudocode.Json

/-- How lists are laid out: on one line, or on lines that are indented by a number of blanks for
each level. -/
inductive Style where
  | compact
  | indented (width : Nat)
  deriving DecidableEq, Repr

def escape (c : Char) : List Char :=
  if c = '"' then ['\\', '"']
  else if c = '\\' then ['\\', '\\']
  else if c = '\n' then ['\\', 'n']
  else if c = '\r' then ['\\', 'r']
  else if c = '\t' then ['\\', 't']
  else if c = '\x08' then ['\\', 'b']
  else if c = '\x0c' then ['\\', 'f']
  else if c.toNat < 0x20 then '\\' :: 'u' :: Text.hexadecimal 4 c.toNat
  else [c]

def quote (cs : List Char) : List Char := '"' :: cs.flatMap escape ++ ['"']

/-- What separates lines of a list at a level. -/
def Style.lineBreak (level : Nat) : Style → List Char
  | compact => []
  | indented width => '\n' :: List.replicate (width * level) ' '

/-- What separates items of a list at a level. -/
def Style.separator (level : Nat) : Style → List Char
  | compact => [',', ' ']
  | indented width => ',' :: (indented width).lineBreak level

mutual

/-- A datum as JSON, inside so many lists. -/
def write (style : Style) (level : Nat) : Datum → List Char
  | .boolean value => if value then "true".toList else "false".toList
  | .text content => quote content.toList
  | .integer value => (toString value).toList
  | .real value => (Number.exactText value).toList
  | .list [] => ['[', ']']
  | .list (item :: items) =>
      '[' :: style.lineBreak (level + 1) ++ write style (level + 1) item ++
        writeRest style (level + 1) items ++ style.lineBreak level ++ [']']

def writeRest (style : Style) (level : Nat) : List Datum → List Char
  | [] => []
  | item :: items => style.separator level ++ write style level item ++ writeRest style level items

end

def text (style : Style) (d : Datum) : String := String.ofList (write style 0 d)

end Pseudocode.Json
