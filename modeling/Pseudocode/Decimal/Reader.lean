import Pseudocode.Text.Blank
import Pseudocode.Text.Digit
import Pseudocode.Decimal.Shortest

/-!
# Reading decimals

A numeral is a run of decimal digits with at most one point, and possibly an
exponent. Digits of any script are accepted and may be mixed. The value is the
binary number nearest to the decimal, ties going to the even mantissa.
-/
namespace Pseudocode.Decimal

/-- The value of a run of digits, most significant first. -/
def ofDigits (digits : List Nat) : Nat := digits.foldl (fun n d => 10 * n + d) 0

/-- The nearest binary number. Past the bounds tested first, the number is infinite or zero
whatever its digits are, and its power of ten is not computed. -/
def Scientific.toFloat (d : Scientific) : Float :=
  let magnitude : Int := d.digits.log2 + 3 * d.exponent
  if d.digits = 0 then 0.0
  else if 0 ≤ d.exponent ∧ 1100 < magnitude then 1.0 / 0.0
  else if d.exponent < 0 ∧ magnitude < -1100 then 0.0
  else Float.ofScientific d.digits (d.exponent < 0) d.exponent.natAbs

/-- The decimal digits at the front of a text, and what follows them. -/
def takeDigits : List Char → List Nat × List Char
  | [] => ([], [])
  | c :: cs => match Text.digitValue? c with
    | some d => let (digits, rest) := takeDigits cs; (d :: digits, rest)
    | none => ([], c :: cs)

/-- The exponent part of a numeral, which may be empty and otherwise fills the text. -/
def readExponent? : List Char → Option Int
  | [] => some 0
  | mark :: cs =>
      if mark = 'e' || mark = 'E' then
        let (negative, cs) := match cs with
          | '-' :: cs => (true, cs)
          | '+' :: cs => (false, cs)
          | cs => (false, cs)
        match takeDigits cs with
        | (d :: digits, []) =>
            let n : Int := ofDigits (d :: digits)
            some (if negative then -n else n)
        | _ => none
      else none

def readNumeral? (cs : List Char) : Option Scientific :=
  let (whole, rest) := takeDigits cs
  let (fraction, rest) := match rest with
    | '.' :: rest => takeDigits rest
    | rest => ([], rest)
  if whole.isEmpty && fraction.isEmpty then none
  else (readExponent? rest).map fun e => ⟨ofDigits (whole ++ fraction), e - fraction.length⟩

/-- Every underscore stands between two digits. -/
def underscoresSeparateDigits : (afterDigit : Bool) → List Char → Bool
  | _, [] => true
  | afterDigit, '_' :: cs =>
      afterDigit && (cs.head?.any fun c => (Text.digitValue? c).isSome) &&
        underscoresSeparateDigits false cs
  | _, c :: cs => underscoresSeparateDigits (Text.digitValue? c).isSome cs

/-- Any spelling of a number: blanks around it, a sign, underscores between digits, a numeral or
the name of an infinity or of the undefined number. -/
def read? (s : String) : Option Float :=
  let cs := Text.trim s.toList
  let (negative, body) := match cs with
    | '-' :: body => (true, body)
    | '+' :: body => (false, body)
    | body => (false, body)
  let magnitude :=
    if ["inf", "infinity"].contains (String.ofList (body.map Char.toLower)) then some (1.0 / 0.0)
    else if String.ofList (body.map Char.toLower) = "nan" then some (0.0 / 0.0)
    else if underscoresSeparateDigits false body then
      (readNumeral? (body.filter (· ≠ '_'))).map Scientific.toFloat
    else none
  magnitude.map fun x => if negative then -x else x

end Pseudocode.Decimal
