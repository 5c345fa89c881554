import Pseudocode.Lexeme
import Pseudocode.SourceError

/-!
# Layout

Lexemes become a stream of bracketed tokens. The whole program is one block, every
line of it is a block of its own, and so is what follows an arrow, up to the end of
the line or to the bracket that closes around it. A line break inside parentheses
ends nothing. A line or a right-hand side without tokens leaves no trace.

Nothing here requires brackets to match: a closer without an opener is passed on as
it stands, and the parser reports it.
-/
namespace Pseudocode

/-- What is open at some point of a program. -/
inductive Layout.Bracket where
  | statement
  | brace
  | paren
  | arrow
  deriving DecidableEq, Repr

/-- An open bracket and the index of the token that opened it. -/
structure Layout.Frame where
  bracket : Layout.Bracket
  opener : Nat
  deriving DecidableEq, Repr

/-- A character that starts no lexeme, where it was found. -/
structure Diagnostic where
  character : Char
  position : Position
  deriving DecidableEq, Repr

def Diagnostic.message (d : Diagnostic) : String :=
  "ignoring " ++ Text.quoted (String.singleton d.character)

/-- The tokens so far, the open brackets from the innermost out, and the ignored characters. -/
structure Layout where
  tokens : Array Token := #[]
  frames : List Layout.Frame := []
  diagnostics : Array Diagnostic := #[]
  deriving DecidableEq, Repr

namespace Layout

def emit (s : Layout) (kind : Token.Kind) (p : Position) : Layout :=
  { s with tokens := s.tokens.push ⟨kind, .ofPosition p⟩ }

def openWith (s : Layout) (bracket : Bracket) (kind : Token.Kind) (p : Position) : Layout :=
  let frame : Frame := ⟨bracket, s.tokens.size⟩
  { s with tokens := s.tokens.push ⟨kind, .ofPosition p⟩, frames := frame :: s.frames }

def openStatement (s : Layout) (p : Position) : Layout := s.openWith .statement (.blockOpen false) p

/-- The stream after an implicit block has ended: an opener with nothing after it is taken back. -/
def closeBlock (p : Position) (tokens : Array Token) (f : Frame) : Array Token :=
  if f.opener + 1 = tokens.size then tokens.pop else tokens.push ⟨.blockClose, .ofPosition p⟩

/-- Ends the right-hand sides that are open innermost. -/
def closeArrows (s : Layout) (p : Position) : Layout :=
  { s with
    tokens := (s.frames.takeWhile (·.bracket = .arrow)).foldl (closeBlock p) s.tokens
    frames := s.frames.dropWhile (·.bracket = .arrow) }

/-- Ends the statement that is open innermost, if one is. -/
def closeStatement (s : Layout) (p : Position) : Layout :=
  match s.frames with
  | f@⟨.statement, _⟩ :: rest => { s with tokens := closeBlock p s.tokens f, frames := rest }
  | _ => s

/-- Forgets the innermost bracket if it is of the given sort. -/
def leave (s : Layout) (bracket : Bracket) : Layout :=
  match s.frames with
  | f :: rest => if f.bracket = bracket then { s with frames := rest } else s
  | [] => s

/-- A line break ends nothing inside parentheses. -/
def insideParen (s : Layout) : Bool :=
  match s.frames.dropWhile (·.bracket = .arrow) with
  | f :: _ => f.bracket = .paren
  | [] => false

/-- The innermost bracket is a statement directly inside braces. -/
def insideBrace (s : Layout) : Bool :=
  match s.frames with
  | ⟨.statement, _⟩ :: ⟨.brace, _⟩ :: _ => true
  | _ => false

def breakLine (s : Layout) (p : Position) : Layout :=
  if s.insideParen then s
  else ((s.closeArrows p).closeStatement p).openStatement (p.next '\n')

def closeParen (s : Layout) (p : Position) : Layout :=
  ((s.closeArrows p).leave .paren).emit .argumentsClose p

/-- A closing brace, which also ends the statement before it. -/
def closeBrace (s : Layout) (p : Position) : Layout :=
  let s := s.closeArrows p
  let s := if s.insideBrace then s.closeStatement p else s
  (s.leave .brace).emit .blockClose p

def step (s : Layout) : Position × Lexeme → Layout
  | (p, .newline) => s.breakLine p
  | (_, .blank _) => s
  | (p, .ignored c) => { s with diagnostics := s.diagnostics.push ⟨c, p⟩ }
  | (p, .arrow) => (s.emit .arrow p).openWith .arrow (.blockOpen false) p
  | (p, .less) => s.emit .less p
  | (p, .parenOpen) => s.openWith .paren .argumentsOpen p
  | (p, .parenClose) => s.closeParen p
  | (p, .braceOpen) => (s.openWith .brace (.blockOpen true) p).openStatement p
  | (p, .braceClose) => s.closeBrace p
  | (p, .operator c) => s.emit (.operation (String.singleton c)) p
  | (p, .quoted content) => s.emit (.text (String.ofList content)) p
  | (_, .unclosed _) => s
  | (p, .word content) => s.emit (Token.Kind.ofWord content) p

def start : Layout :=
  (({} : Layout).emit (.blockOpen false) .start).openStatement .start

/-- Ends whatever implicit blocks are open innermost, and the program. -/
def finish (s : Layout) (p : Position) : Layout :=
  ((s.closeArrows p).closeStatement p).emit .blockClose p

def ofSource (source : List Char) : Layout :=
  ((Lexeme.place .start (Lexeme.all source)).foldl step start).finish
    (Position.start.advance source)

end Layout

/-- The tokens of a source text and the characters that were ignored in it. The only failure is a
quote without a partner. -/
def tokenize (source : String) : Except SourceError Layout :=
  let cs := source.toList
  let unclosed := (Lexeme.place .start (Lexeme.all cs)).findSome? fun
    | (p, .unclosed _) => some p
    | _ => none
  match unclosed with
  | some p => .error (.unterminatedText p)
  | none => .ok (Layout.ofSource cs)

end Pseudocode
