import Pseudocode.Text.Lines

/-!
# Excerpts

The line that a report is about and the line before it, numbered, with a caret under
the column.
-/
namespace Pseudocode

namespace Excerpt

/-- `n` in base ten, with blanks in front up to `width`. -/
def rightAligned (width n : Nat) : String :=
  let digits := toString n
  String.ofList (List.replicate (width - digits.length) ' ') ++ digits

def row (marker : String) (label line : String) : String := marker ++ " " ++ label ++ " | " ++ line

/-- The rows around a line: the line before it, if there is one, the line itself, and the caret, if
there is a column for it. There are none when the text has no such line. -/
def rows (lines : List String) (line : Nat) (column : Option Int) : List String :=
  let width := (toString line).length
  match line, lines[line - 1]? with
  | number + 1, some line =>
      let caret (column : Int) : String :=
        row " " (String.ofList (List.replicate width ' '))
          (String.ofList (List.replicate (column - 1).toNat ' ') ++ "^")
      let before := match number with
        | 0 => []
        | previous + 1 =>
            (lines[previous]?.map fun line => row " " (rightAligned width number) line).toList
      before ++ row ">" (rightAligned width (number + 1)) line :: (column.map caret).toList
  | _, _ => []

end Excerpt

/-- The excerpt of a source text around a line; empty when the text has no such line. -/
def excerpt (source : String) (line : Int) (column : Option Int) : String :=
  String.intercalate "\n" (Excerpt.rows (Text.splitLines source) line.toNat column)

end Pseudocode
