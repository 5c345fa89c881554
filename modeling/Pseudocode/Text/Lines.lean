/-!
# Lines

Two notions of a line. A source excerpt breaks at every character that a text
viewer may treat as the end of a line; input that is read line by line has its
line ends unified to a line feed first.
-/
namespace Pseudocode.Text

/-- Characters that end a line of an excerpt. -/
def isLineBreak (c : Char) : Bool :=
  c ∈ ['\n', '\r', '\x0b', '\x0c', '\x1c', '\x1d', '\x1e', '\u0085', '\u2028', '\u2029']

/-- Lines of an excerpt, with the line read so far in `line`, last character first. A carriage
return and the line feed after it are one break; no line follows a break at the end. -/
def splitLinesFrom (line : List Char) : List Char → List (List Char)
  | [] => if line.isEmpty then [] else [line.reverse]
  | '\r' :: '\n' :: cs => line.reverse :: splitLinesFrom [] cs
  | c :: cs => if isLineBreak c then line.reverse :: splitLinesFrom [] cs
      else splitLinesFrom (c :: line) cs

def splitLines (s : String) : List String := (splitLinesFrom [] s.toList).map String.ofList

/-- Writes every line end as a line feed. -/
def unifyLineEnds : List Char → List Char
  | [] => []
  | '\r' :: '\n' :: cs => '\n' :: unifyLineEnds cs
  | '\r' :: cs => '\n' :: unifyLineEnds cs
  | c :: cs => c :: unifyLineEnds cs

/-- Input as a reader takes it line by line: every line but possibly the last keeps its line
feed, and no line is empty. -/
def readableLinesFrom (line : List Char) : List Char → List (List Char)
  | [] => if line.isEmpty then [] else [line.reverse]
  | '\n' :: cs => ('\n' :: line).reverse :: readableLinesFrom [] cs
  | c :: cs => readableLinesFrom (c :: line) cs

def readableLines (s : String) : List String :=
  (readableLinesFrom [] (unifyLineEnds s.toList)).map String.ofList

end Pseudocode.Text
