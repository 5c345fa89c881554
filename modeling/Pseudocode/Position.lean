/-!
# Source positions

Lines and columns count from one. Only a line feed ends a line, and every other
character takes one column.

Tokens and trees need not come from a text. A location is what they tell about where
they stand: either number may be missing, and any may be given.
-/
namespace Pseudocode

structure Position where
  line : Nat
  column : Nat
  deriving DecidableEq, Repr

namespace Position

def start : Position := ⟨1, 1⟩

def next (p : Position) (c : Char) : Position :=
  if c = '\n' then ⟨p.line + 1, 1⟩ else ⟨p.line, p.column + 1⟩

def advance (p : Position) (cs : List Char) : Position := cs.foldl next p

@[simp] theorem advance_nil (p : Position) : p.advance [] = p := rfl

@[simp] theorem advance_cons (p : Position) (c : Char) (cs : List Char) :
    p.advance (c :: cs) = (p.next c).advance cs := rfl

@[simp] theorem advance_append (p : Position) (cs ds : List Char) :
    p.advance (cs ++ ds) = (p.advance cs).advance ds := by simp [advance]

end Position

/-- What is told about where something stands. -/
structure Location where
  line : Option Int := none
  column : Option Int := none
  deriving DecidableEq, Repr

namespace Location

def ofPosition (p : Position) : Location := ⟨some p.line, some p.column⟩

/-- A location can be pointed at when its line is known. -/
def pointed? (l : Location) : Option Location := if l.line.isSome then some l else none

end Location

end Pseudocode
