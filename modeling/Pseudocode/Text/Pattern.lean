/-!
# Patterns of text

Regular expressions over characters, matched against a whole text by derivatives:
after a character, what is left to match is again a pattern.
-/
namespace Pseudocode.Text

inductive Pattern where
  | never
  | empty
  | char (accepts : Char → Bool)
  | seq (first second : Pattern)
  | alt (left right : Pattern)
  | star (body : Pattern)

namespace Pattern

/-- A sequence; what can never match stays so, and what is empty is left out. -/
def andThen : Pattern → Pattern → Pattern
  | never, _ => never
  | _, never => never
  | empty, p => p
  | p, empty => p
  | p, q => seq p q

/-- A choice, without alternatives that can never match. -/
def orElse : Pattern → Pattern → Pattern
  | never, p => p
  | p, never => p
  | p, q => alt p q

def nullable : Pattern → Bool
  | never | char _ => false
  | empty | star _ => true
  | seq p q => p.nullable && q.nullable
  | alt p q => p.nullable || q.nullable

/-- What is left to match after a character. -/
def derivative (c : Char) : Pattern → Pattern
  | never | empty => never
  | char accepts => if accepts c then empty else never
  | seq p q =>
      let viaFirst := (p.derivative c).andThen q
      if p.nullable then viaFirst.orElse (q.derivative c) else viaFirst
  | alt p q => (p.derivative c).orElse (q.derivative c)
  | star p => (p.derivative c).andThen (star p)

def accepts (p : Pattern) (cs : List Char) : Bool :=
  (cs.foldl (fun p c => p.derivative c) p).nullable

def oneOf (cs : List Char) : Pattern := char (· ∈ cs)

def exactly (s : String) : Pattern := s.toList.foldr (fun c p => seq (char (· = c)) p) empty

def all (ps : List Pattern) : Pattern := ps.foldr seq empty

def any (ps : List Pattern) : Pattern := ps.foldr alt never

def optional (p : Pattern) : Pattern := alt empty p

def some (p : Pattern) : Pattern := seq p (star p)

end Pattern

end Pseudocode.Text
