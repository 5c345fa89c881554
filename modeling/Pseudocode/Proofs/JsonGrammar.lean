import Mathlib.Data.List.TakeWhile
import Pseudocode.Decimal.Reader

/-!
# The grammar of JSON

A JSON text is a value with gaps around it. Values are three words, numerals, texts between
quotes, arrays and objects. A numeral without a fraction and without an exponent is an integer,
and any other one is the nearest number. In a text a character is written as itself, by a
letter behind a backslash, or as one or two code units in hexadecimal digits; half a pair of
units is no character, so a text with one has no value.

The grammar is a relation between texts and what they stand for. It does not say how a text
is read.
-/
namespace Pseudocode.Json

/-- What a JSON text stands for. -/
inductive Item where
  | null
  | boolean (value : Bool)
  | text (content : String)
  | integer (value : Int)
  | real (value : Float)
  | array (items : List Item)
  | object (members : List (String × Item))

structure Digits where
  chars : List Char
  ne_nil : chars ≠ []
  decimal : ∀ c ∈ chars, c.isDigit = true

def Digits.value (ds : Digits) : Nat := Nat.ofDigitChars 10 ds.chars 0

structure Exponent where
  capital : Bool
  minus : Option Bool
  digits : Digits

def Exponent.mark (e : Exponent) : Char := if e.capital then 'E' else 'e'

def sign : Option Bool → List Char
  | none => []
  | some minus => [if minus then '-' else '+']

def Exponent.chars (e : Exponent) : List Char := e.mark :: (sign e.minus ++ e.digits.chars)

def Exponent.value (e : Exponent) : Int :=
  if e.minus = some true then -e.digits.value else e.digits.value

def fractionChars : Option Digits → List Char
  | none => []
  | some ds => '.' :: ds.chars

def exponentChars : Option Exponent → List Char
  | none => []
  | some e => e.chars

/-- A numeral. Zeros do not lead. -/
structure Numeral where
  negative : Bool
  whole : Digits
  plain : whole.chars.head? = some '0' → whole.chars = ['0']
  fraction : Option Digits
  exponent : Option Exponent

namespace Numeral

def unsigned (n : Numeral) : List Char :=
  n.whole.chars ++ (fractionChars n.fraction ++ exponentChars n.exponent)

def chars (n : Numeral) : List Char := if n.negative then '-' :: n.unsigned else n.unsigned

def decimals (n : Numeral) : List Char := (n.fraction.map Digits.chars).getD []

/-- The decimal that a numeral writes, without its sign. -/
def magnitude (n : Numeral) : Decimal.Scientific :=
  ⟨Nat.ofDigitChars 10 (n.whole.chars ++ n.decimals) 0,
    (n.exponent.map Exponent.value).getD 0 - n.decimals.length⟩

def isInteger (n : Numeral) : Bool := n.fraction.isNone && n.exponent.isNone

def item (n : Numeral) : Item :=
  if n.isInteger then .integer (if n.negative then -n.whole.value else n.whole.value)
  else .real (if n.negative then -n.magnitude.toFloat else n.magnitude.toFloat)

end Numeral

/-- Characters that are escaped by a letter, each behind its letter. -/
def shortEscapes : List (Char × Char) :=
  [('"', '"'), ('\\', '\\'), ('/', '/'), ('b', '\x08'), ('f', '\x0c'), ('n', '\n'), ('r', '\r'),
    ('t', '\t')]

/-- The value of a hexadecimal digit, small or capital. -/
def hexValue? (c : Char) : Option Nat :=
  if c.isDigit then some (c.toNat - 48)
  else if 'a' ≤ c ∧ c ≤ 'f' then some (c.toNat - 87)
  else if 'A' ≤ c ∧ c ≤ 'F' then some (c.toNat - 55)
  else none

def unit? (a b c d : Char) : Option Nat := do
  return ((← hexValue? a) * 16 + (← hexValue? b)) * 256 + ((← hexValue? c) * 16 + (← hexValue? d))

/-- A character that is written as itself. -/
def isPlain (c : Char) : Bool := 0x20 ≤ c.toNat && c ≠ '"' && c ≠ '\\'

/-- How the characters of a text are written, and the code points or units that they are. -/
inductive Letters : List Char → List Nat → Prop
  | nil : Letters [] []
  | plain {c : Char} {cs : List Char} {units : List Nat} :
      isPlain c = true → Letters cs units → Letters (c :: cs) (c.toNat :: units)
  | short {mark c : Char} {cs : List Char} {units : List Nat} :
      shortEscapes.lookup mark = some c → Letters cs units →
      Letters ('\\' :: mark :: cs) (c.toNat :: units)
  | unicode {a b c d : Char} {unit : Nat} {cs : List Char} {units : List Nat} :
      unit? a b c d = some unit → Letters cs units →
      Letters ('\\' :: 'u' :: a :: b :: c :: d :: cs) (unit :: units)

/-- The characters that code points and units make. A pair of units is one character. -/
def ofUnits? : List Nat → Option (List Char)
  | [] => some []
  | unit :: units =>
      if unit.isValidChar then (ofUnits? units).map (Char.ofNat unit :: ·)
      else match units with
        | [] => none
        | low :: units =>
            if 0xD800 ≤ unit ∧ unit < 0xDC00 ∧ 0xDC00 ≤ low ∧ low < 0xE000 then
              (ofUnits? units).map
                (Char.ofNat (0x10000 + (unit - 0xD800) * 0x400 + (low - 0xDC00)) :: ·)
            else none

inductive Quoted : List Char → String → Prop
  | intro {body : List Char} {units : List Nat} {content : List Char} :
      Letters body units → ofUnits? units = some content →
      Quoted ('"' :: body ++ ['"']) (String.ofList content)

def isSpace (c : Char) : Bool := c = ' ' || c = '\t' || c = '\n' || c = '\r'

/-- What may stand between the signs of a text and means nothing. -/
structure Gap where
  chars : List Char
  spaces : ∀ c ∈ chars, isSpace c = true

structure Part where
  before : Gap
  written : List Char
  after : Gap
  item : Item

def Part.chars (p : Part) : List Char := p.before.chars ++ p.written ++ p.after.chars

/-- A value of an object behind its name. -/
structure Member where
  before : Gap
  written : List Char
  after : Gap
  name : String
  part : Part

def Member.chars (m : Member) : List Char :=
  m.before.chars ++ m.written ++ m.after.chars ++ ':' :: m.part.chars

def Member.item (m : Member) : String × Item := (m.name, m.part.item)

def words : List (List Char × Item) :=
  [("null".toList, .null), ("true".toList, .boolean true), ("false".toList, .boolean false)]

/-- Texts with commas between them. -/
def series (texts : List (List Char)) : List Char := [','].intercalate texts

/-- How values are written. -/
inductive Spells : List Char → Item → Prop
  | word {cs : List Char} {i : Item} : (cs, i) ∈ words → Spells cs i
  | number (n : Numeral) : Spells n.chars n.item
  | text {cs : List Char} {content : String} : Quoted cs content → Spells cs (.text content)
  | emptyArray (gap : Gap) : Spells ('[' :: gap.chars ++ [']']) (.array [])
  | array {parts : List Part} : parts ≠ [] → (∀ p ∈ parts, Spells p.written p.item) →
      Spells ('[' :: series (parts.map Part.chars) ++ [']']) (.array (parts.map Part.item))
  | emptyObject (gap : Gap) : Spells ('\x7b' :: gap.chars ++ ['\x7d']) (.object [])
  | object {members : List Member} : members ≠ [] → (∀ m ∈ members, Quoted m.written m.name) →
      (∀ m ∈ members, Spells m.part.written m.part.item) →
      Spells ('\x7b' :: series (members.map Member.chars) ++ ['\x7d'])
        (.object (members.map Member.item))

/-- A whole text is one value with gaps around it. -/
inductive Document : List Char → Item → Prop
  | intro (p : Part) : Spells p.written p.item → Document p.chars p.item

end Pseudocode.Json
