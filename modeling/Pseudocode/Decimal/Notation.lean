import Pseudocode.Decimal.Shortest

/-!
# Layout of decimals

Where the point goes, when an exponent is written, and the spelling of the numbers
that are not finite.
-/
namespace Pseudocode.Decimal

/-- The decisions of a number format. -/
structure Notation where
  /-- Least exponent of the leading digit that is written without an exponent part. -/
  lowest : Int
  /-- Greatest such exponent. -/
  highest : Int
  /-- Whole numbers end in `.0`. -/
  keepPoint : Bool
  /-- Fewest digits of a written exponent. -/
  exponentWidth : Nat
  notANumber : String
  infinity : String

/-- `n` in base ten, padded with zeros to `width`. -/
def padded (width n : Nat) : List Char :=
  let digits := Nat.toDigits 10 n
  List.replicate (width - digits.length) '0' ++ digits

/-- Digits with the point after the first `whole` of them, zeros filling either side. -/
def Notation.positional (f : Notation) (digits : List Char) (whole : Int) : List Char :=
  if whole ≤ 0 then '0' :: '.' :: List.replicate (-whole).toNat '0' ++ digits
  else if (digits.length : Int) ≤ whole then
    digits ++ List.replicate (whole.toNat - digits.length) '0' ++
      (if f.keepPoint then ['.', '0'] else [])
  else digits.take whole.toNat ++ '.' :: digits.drop whole.toNat

/-- Digits with the point after the first one, and the exponent of that digit. -/
def Notation.scientific (f : Notation) (digits : List Char) (exponent : Int) : List Char :=
  let sign := if exponent < 0 then '-' else '+'
  let point := match digits with
    | first :: rest@(_ :: _) => first :: '.' :: rest
    | _ => digits
  point ++ 'e' :: sign :: padded f.exponentWidth exponent.natAbs

def Notation.layout (f : Notation) (d : Scientific) : List Char :=
  let digits := Nat.toDigits 10 d.digits
  let leading := d.exponent + digits.length - 1
  if f.lowest ≤ leading ∧ leading ≤ f.highest then f.positional digits (leading + 1)
  else f.scientific digits leading

def Notation.write (f : Notation) (x : Float) : String :=
  if x.isNaN then f.notANumber
  else
    let sign := if x.toBits >>> 63 = 1 then "-" else ""
    if x.isInf then sign ++ f.infinity
    else
      let binary := Binary.ofBits x.toBits
      let decimal := if binary.mantissa = 0 then ⟨0, 0⟩ else binary.shortest
      sign ++ String.ofList (f.layout decimal)

end Pseudocode.Decimal
