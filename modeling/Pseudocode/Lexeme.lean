import Pseudocode.Text.Alphanumeric
import Pseudocode.Text.Blank
import Pseudocode.Text.Digit
import Pseudocode.Position

/-!
# Lexemes

A source text is cut into lexemes from left to right. Nothing is lost: the texts
of the lexemes, in order, are the source. A character that starts no lexeme of its
own is kept as an ignored one, and a quote without a partner takes the rest of the
text, so the cut never fails.
-/
namespace Pseudocode

/-- A stretch of source text. -/
inductive Lexeme where
  | newline
  | blank (c : Char)
  | ignored (c : Char)
  | arrow
  | less
  | parenOpen
  | parenClose
  | braceOpen
  | braceClose
  | operator (c : Char)
  | quoted (content : List Char)
  /-- A quote without a partner, and all that follows it. -/
  | unclosed (content : List Char)
  | word (content : List Char)
  deriving DecidableEq, Repr

namespace Lexeme

def chars : Lexeme → List Char
  | newline => ['\n']
  | blank c | ignored c | operator c => [c]
  | arrow => ['<', '-']
  | less => ['<']
  | parenOpen => ['(']
  | parenClose => [')']
  | braceOpen => ['\x7b']
  | braceClose => ['\x7d']
  | quoted content => '"' :: content ++ ['"']
  | unclosed content => '"' :: content
  | word content => content

/-- Characters that are an operator on their own. -/
def operatorChars : List Char := ['+', '-', '*', '/', '^', '=', '>']

def startsWord (c : Char) : Bool := Text.isAlphanumeric c || c = '_'

/-- A character that may continue a word; points belong to words that start with a digit. -/
def continuesWord (numeric : Bool) (c : Char) : Bool :=
  startsWord c || numeric && c = '.'

/-- Cuts after the opening quote of a text. -/
def cutQuoted (cs : List Char) : Lexeme × List Char :=
  match cs.dropWhile (· != '"') with
  | [] => (unclosed cs, [])
  | _ :: rest => (quoted (cs.takeWhile (· != '"')), rest)

def cutWord (c : Char) (cs : List Char) : Lexeme × List Char :=
  (word (c :: cs.takeWhile (continuesWord (Text.isDigit c))),
    cs.dropWhile (continuesWord (Text.isDigit c)))

/-- The first lexeme when `c` is no bracket, quote, line feed or less-than sign. -/
def cutPlain (c : Char) (cs : List Char) : Lexeme × List Char :=
  if c ∈ operatorChars then (operator c, cs)
  else if startsWord c then cutWord c cs
  else if Text.isBlank c then (blank c, cs)
  else (ignored c, cs)

/-- The first lexeme of a text that starts with `c`, and what follows it. -/
def cut (c : Char) (cs : List Char) : Lexeme × List Char :=
  match c, cs with
  | '\n', _ => (newline, cs)
  | '<', '-' :: rest => (arrow, rest)
  | '<', _ => (less, cs)
  | '(', _ => (parenOpen, cs)
  | ')', _ => (parenClose, cs)
  | '\x7b', _ => (braceOpen, cs)
  | '\x7d', _ => (braceClose, cs)
  | '"', _ => cutQuoted cs
  | c, _ => cutPlain c cs

theorem cutQuoted_chars (cs : List Char) :
    (cutQuoted cs).1.chars ++ (cutQuoted cs).2 = '"' :: cs := by
  have h := List.takeWhile_append_dropWhile (p := (· != '"')) (l := cs)
  have hhead := List.head?_dropWhile_not (· != '"') cs
  unfold cutQuoted
  split
  · simp [chars]
  · rename_i c rest hd
    have hc : c = '"' := by simpa [hd] using hhead
    rw [hd, hc] at h
    simp [chars, h]

theorem cutPlain_chars (c : Char) (cs : List Char) :
    (cutPlain c cs).1.chars ++ (cutPlain c cs).2 = c :: cs := by
  unfold cutPlain
  repeat' split
  all_goals simp [chars, cutWord]

/-- The text of the first lexeme and what follows it are the whole text. -/
theorem cut_chars (c : Char) (cs : List Char) : (cut c cs).1.chars ++ (cut c cs).2 = c :: cs := by
  unfold cut
  split
  case h_8 => exact cutQuoted_chars cs
  case h_9 => exact cutPlain_chars c cs
  all_goals rfl

theorem cut_chars_ne_nil (c : Char) (cs : List Char) : (cut c cs).1.chars ≠ [] := by
  unfold cut
  split
  case h_8 => unfold cutQuoted; split <;> simp [chars]
  case h_9 => unfold cutPlain; repeat' split
              all_goals simp [chars, cutWord]
  all_goals simp [chars]

theorem length_cut_lt (c : Char) (cs : List Char) : (cut c cs).2.length < (c :: cs).length := by
  have h := congrArg List.length (cut_chars c cs)
  have h' := List.length_pos_iff.2 (cut_chars_ne_nil c cs)
  simp only [List.length_append] at h
  omega

def all : List Char → List Lexeme
  | [] => []
  | c :: cs => (cut c cs).1 :: all (cut c cs).2
termination_by cs => cs.length
decreasing_by exact length_cut_lt c cs

@[simp] theorem all_nil : all [] = [] := by rw [all]

theorem all_cons (c : Char) (cs : List Char) :
    all (c :: cs) = (cut c cs).1 :: all (cut c cs).2 := by rw [all]

/-- The cut loses nothing. -/
theorem flatMap_chars_all (cs : List Char) : (all cs).flatMap chars = cs := by
  fun_induction all cs with
  | case1 => rfl
  | case2 c cs ih => rw [List.flatMap_cons, ih, cut_chars]

/-- Pairs every lexeme with the place of its first character. -/
def place (p : Position) : List Lexeme → List (Position × Lexeme)
  | [] => []
  | l :: ls => (p, l) :: place (p.advance l.chars) ls

end Lexeme

end Pseudocode
