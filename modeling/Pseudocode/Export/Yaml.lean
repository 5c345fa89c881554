import Pseudocode.Export.Datum
import Pseudocode.Text.Pattern

/-!
# YAML

Lists are written in block style, one item a line. A text is plain when nothing in it
could be taken for something else; otherwise it stands between single quotes, or
between double quotes when it holds a character that has to be escaped. Long texts
are folded at blanks once a line has passed eighty columns.
-/
namespace Pseudocode.Yaml

open Text (Pattern)

/-- Text may be folded past this column. -/
def bestWidth : Nat := 80

def isBreak (c : Char) : Bool := c ∈ ['\n', '\u0085', '\u2028', '\u2029']

/-- Characters that separate an indicator from what follows. -/
def isGap (c : Char) : Bool := isBreak c || c ∈ ['\x00', ' ', '\t', '\r']

/-- Characters that only a double-quoted text can hold. -/
def isSpecial (c : Char) : Bool := !(c = '\n' || 0x20 ≤ c.toNat && c.toNat ≤ 0x7E)

/-- Some character that satisfies `p` is directly followed by one that satisfies `q`. -/
def hasPair (p q : Char → Bool) : List Char → Bool
  | c :: d :: cs => p c && q d || hasPair p q (d :: cs)
  | _ => false

namespace Plain

def digit : Pattern := .char fun c => '0' ≤ c && c ≤ '9'

def digitOrUnderscore : Pattern := .char fun c => '0' ≤ c && c ≤ '9' || c = '_'

def sign : Pattern := .optional (.oneOf ['-', '+'])

def sexagesimal : Pattern :=
  .some (.all [.exactly ":", .optional (.char fun c => '0' ≤ c && c ≤ '5'), digit])

def exponent : Pattern :=
  .optional (.all [.oneOf ['e', 'E'], .oneOf ['-', '+'], .some digit])

/-- Texts that stand for booleans, for nothing, or for merge and value keys. -/
def word : Pattern :=
  .any (["yes", "Yes", "YES", "no", "No", "NO", "true", "True", "TRUE", "false", "False", "FALSE",
    "on", "On", "ON", "off", "Off", "OFF", "~", "null", "Null", "NULL", "<<", "="].map .exactly)

def integer : Pattern :=
  let nonzero : Pattern := .char fun c => '1' ≤ c && c ≤ '9'
  let hex : Pattern := .char fun c =>
    '0' ≤ c && c ≤ '9' || 'a' ≤ c && c ≤ 'f' || 'A' ≤ c && c ≤ 'F' || c = '_'
  .all [sign, .any
    [.all [.exactly "0b", .some (.oneOf ['0', '1', '_'])],
      .all [.exactly "0", .some (.char fun c => '0' ≤ c && c ≤ '7' || c = '_')],
      .exactly "0",
      .all [nonzero, .star digitOrUnderscore],
      .all [.exactly "0x", .some hex],
      .all [nonzero, .star digitOrUnderscore, sexagesimal]]]

def real : Pattern :=
  .any
    [.all [sign, digit, .star digitOrUnderscore, .exactly ".", .star digitOrUnderscore, exponent],
      .all [.exactly ".", digit, .star digitOrUnderscore, exponent],
      .all [sign, digit, .star digitOrUnderscore, sexagesimal, .exactly ".",
        .star digitOrUnderscore],
      .all [sign, .any [.exactly ".inf", .exactly ".Inf", .exactly ".INF"]],
      .any [.exactly ".nan", .exactly ".NaN", .exactly ".NAN"]]

def timestamp : Pattern :=
  let year : Pattern := .all [digit, digit, digit, digit, .exactly "-"]
  let short : Pattern := .all [digit, .optional digit]
  let gap : Pattern := .oneOf [' ', '\t']
  let zone : Pattern :=
    .any
      [.exactly "Z",
        .all [.oneOf ['-', '+'], short, .optional (.all [.exactly ":", digit, digit])]]
  .any
    [.all [year, digit, digit, .exactly "-", digit, digit],
      .all [year, short, .exactly "-", short, .any [.oneOf ['T', 't'], .some gap],
        short, .exactly ":", digit, digit, .exactly ":", digit, digit,
        .optional (.all [.exactly ".", .star digit]), .optional (.all [.star gap, zone])]]

/-- Texts that would be read as something other than a text. -/
def ambiguous : Pattern := .any [word, integer, real, timestamp]

/-- Characters that may not start a plain text. -/
def leading : List Char :=
  ['#', ',', '[', ']', '\x7b', '\x7d', '&', '*', '!', '|', '>', '\'', '"', '%', '@', '\x60']

/-- The first character, or the first three, have a meaning of their own. -/
def startsIndicator (cs : List Char) : Bool :=
  ['-', '-', '-'].isPrefixOf cs || ['.', '.', '.'].isPrefixOf cs ||
    match cs with
    | [] => false
    | c :: rest => c ∈ leading || c ∈ ['?', ':', '-'] && (rest.head?.all isGap)

/-- Some later character has a meaning of its own: a colon before a gap or at the end, or a number
sign after a gap. -/
def holdsIndicator (cs : List Char) : Bool :=
  hasPair (· = ':') isGap cs.tail || cs.tail.getLast? = some ':' || hasPair isGap (· = '#') cs

def allows (cs : List Char) : Bool :=
  !cs.isEmpty && !cs.any isSpecial && !cs.any isBreak && cs.head? != some ' ' &&
    cs.getLast? != some ' ' && !startsIndicator cs && !holdsIndicator cs && !ambiguous.accepts cs

end Plain

def allowsSingleQuotes (cs : List Char) : Bool :=
  !cs.any isSpecial && !hasPair (· = ' ') isBreak cs && !hasPair isBreak (· = ' ') cs

def newLine (margin : Nat) : List Char := '\n' :: List.replicate margin ' '

/-- The sorts of characters that folding tells apart. -/
inductive Stretch where
  | blanks
  | breaks
  | others
  deriving DecidableEq, Repr

def Stretch.of (c : Char) : Stretch :=
  if c = ' ' then blanks else if c = '\n' then breaks else others

/-- The longest stretches of characters of one sort, in order. -/
def stretches (cs : List Char) : List (List Char) :=
  cs.splitBy fun c d => Stretch.of c = Stretch.of d

/-- Stretches from a column on. A single blank past the best width becomes a line break, unless
the text starts or ends with it; line breaks are written once more than they occur. -/
def fold (escape : Char → List Char) (margin : Nat) : (first : Bool) → (column : Nat) →
    List (List Char) → List Char
  | _, _, [] => []
  | first, column, [' '] :: rest =>
      if bestWidth < column && !first && !rest.isEmpty then
        newLine margin ++ fold escape margin false margin rest
      else ' ' :: fold escape margin false (column + 1) rest
  | _, _, ('\n' :: breaks) :: rest =>
      '\n' :: breaks ++ newLine margin ++ fold escape margin false margin rest
  | _, column, stretch :: rest =>
      let written := stretch.flatMap escape
      written ++ fold escape margin false (column + written.length) rest

def writePlain (margin column : Nat) (cs : List Char) : List Char :=
  fold (fun c => [c]) margin true column (stretches cs)

/-- A text between single quotes, which are doubled inside it. -/
def writeSingleQuoted (margin column : Nat) (cs : List Char) : List Char :=
  let double (c : Char) : List Char := if c = '\'' then ['\'', '\''] else [c]
  '\'' :: fold double margin true (column + 1) (stretches cs) ++ ['\'']

/-- Upper-case hexadecimal digits of `n`, padded with zeros to `width`. -/
def hexadecimal (width n : Nat) : List Char :=
  let digits := (Nat.toDigits 16 n).map Char.toUpper
  List.replicate (width - digits.length) '0' ++ digits

/-- Escapes of a letter, by the character that they stand for. -/
def letterEscapes : List (Char × Char) :=
  [('\x00', '0'), ('\x07', 'a'), ('\x08', 'b'), ('\t', 't'), ('\n', 'n'), ('\x0b', 'v'),
    ('\x0c', 'f'), ('\r', 'r'), ('\x1b', 'e'), ('"', '"'), ('\\', '\\'), ('\u0085', 'N'),
    ('\u00a0', '_'), ('\u2028', 'L'), ('\u2029', 'P')]

/-- The escape of a character, if it needs one between double quotes. -/
def escape? (c : Char) : Option (List Char) :=
  match letterEscapes.lookup c with
  | some letter => some ['\\', letter]
  | none =>
      let n := c.toNat
      if 0x20 ≤ n ∧ n ≤ 0x7E then none
      else if n < 0x100 then some ('\\' :: 'x' :: hexadecimal 2 n)
      else if n < 0x10000 then some ('\\' :: 'u' :: hexadecimal 4 n)
      else some ('\\' :: 'U' :: hexadecimal 8 n)

/-- A line break inside a double-quoted text; a blank that follows it is escaped. -/
def escapedNewLine (margin : Nat) (next : Option Char) : List Char :=
  '\\' :: newLine margin ++ if next = some ' ' then ['\\'] else []

/-- The column after `escapedNewLine`. -/
def columnAfter (margin : Nat) (next : Option Char) : Nat :=
  margin + if next = some ' ' then 1 else 0

/-- The inside of a double-quoted text. `pending` are the characters since the last escape or line
break, last first, and `column` is where they start. Past the best width a line may end before a
blank, after an escape, or before the character after one, but neither at the first character of
the text nor at its last. -/
def foldEscaped (margin : Nat) : (first : Bool) → (pending : List Char) → (column : Nat) →
    List Char → List Char
  | _, pending, _, [] => pending.reverse
  | first, pending, column, c :: cs =>
      match escape? c with
      | some escaped =>
          let written := pending.reverse ++ escaped
          let column := column + written.length
          if !first && !cs.isEmpty && bestWidth + 1 < column then
            written ++ escapedNewLine margin cs.head? ++
              foldEscaped margin false [] (columnAfter margin cs.head?) cs
          else written ++ foldEscaped margin false [] column cs
      | none =>
          if !first && !cs.isEmpty && (c = ' ' || pending.isEmpty) &&
              bestWidth < column + pending.length then
            pending.reverse ++ escapedNewLine margin (some c) ++
              foldEscaped margin false [c] (columnAfter margin (some c)) cs
          else foldEscaped margin false (c :: pending) column cs

def writeDoubleQuoted (margin column : Nat) (cs : List Char) : List Char :=
  '"' :: foldEscaped margin true [] (column + 1) cs ++ ['"']

/-- A text in the plainest form that it allows. -/
def writeText (margin column : Nat) (cs : List Char) : List Char :=
  if Plain.allows cs then writePlain margin column cs
  else if allowsSingleQuotes cs then writeSingleQuoted margin column cs
  else writeDoubleQuoted margin column cs

/-- A number that is not whole; the digits before an exponent always have a point. -/
def writeReal (x : Float) : List Char :=
  let cs := (Number.exactText x).toList
  if cs.contains '.' then cs
  else cs.flatMap fun c => if c = 'e' then ['.', '0', 'e'] else [c]

mutual

/-- A datum inside so many columns of lists. Its first line starts at that column. -/
def write (margin : Nat) : Datum → List Char
  | .boolean value => if value then "true".toList else "false".toList
  | .text content => writeText margin margin content.toList
  | .integer value => (toString value).toList
  | .real value => writeReal value
  | .list [] => ['[', ']']
  | .list (item :: items) => '-' :: ' ' :: write (margin + 2) item ++ writeRest margin items

def writeRest (margin : Nat) : List Datum → List Char
  | [] => []
  | item :: items =>
      newLine margin ++ '-' :: ' ' :: write (margin + 2) item ++ writeRest margin items

end

/-- A datum as a document. A document that is nothing but a plain scalar is ended by a mark. -/
def document : Datum → List Char
  | .text content =>
      let cs := content.toList
      writeText 2 0 cs ++ '\n' :: if Plain.allows cs then "...\n".toList else []
  | .list items => write 0 (.list items) ++ ['\n']
  | d => write 0 d ++ "\n...\n".toList

def text (d : Datum) : String := String.ofList (document d)

end Pseudocode.Yaml
