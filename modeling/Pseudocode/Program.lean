import Pseudocode.Node.Parser
import Pseudocode.Node.Printer

/-!
# Programs as text

Printing and comparing the trees of source texts. Both go down the trees, so a tree
that nests deeper than the limit is refused, as it is when it is evaluated.
-/
namespace Pseudocode

def printProgram (indent : Int) (tree : Node) (limit : Nat := nestingLimit) :
    Except SourceError String :=
  if tree.height ≤ limit then .ok (tree.programText indent) else .error .tooDeep

/-- Two program trees are the same up to locations. -/
def samePrograms (a b : Node) (limit : Nat := nestingLimit) : Except SourceError Bool :=
  if min a.height b.height ≤ limit then .ok (a.same b) else .error .tooDeep

end Pseudocode
