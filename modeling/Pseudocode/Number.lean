import Pseudocode.Decimal.Notation
import Pseudocode.Decimal.Reader

/-!
# Numbers

Numbers are binary floating-point numbers of 64 bits. This module holds the
arithmetic of the language where it says more than the operation of the hardware,
and the two texts of a number: in full digits for people, and in a form that
always reads back.
-/
namespace Pseudocode.Number

/-- The sign bit, which zero has too. -/
def isNegative (x : Float) : Bool := x.toBits >>> 63 = 1

/-- `x` with its sign bit set as in `y`. -/
def withSignOf (x y : Float) : Float := if isNegative y then -x.abs else x.abs

def toInt? (x : Float) : Option Int :=
  if x.isNaN || x.isInf then none
  else
    let b := Decimal.Binary.ofBits x.toBits
    let divisor := Decimal.twoTo (-b.exponent).toNat
    if b.mantissa % divisor = 0 then
      let magnitude := b.mantissa * Decimal.twoTo b.exponent.toNat / divisor
      some (if isNegative x then -(magnitude : Int) else magnitude)
    else none

/-- The nearest number to an integer, unless it lies past every finite number. -/
def ofInt? (n : Int) : Option Float :=
  let x := Float.ofInt n
  if x.isInf then none else some x

/-- The remainder of a division that rounds towards zero; it has the sign of the dividend. The
division is carried out on integers, so the remainder is exact. -/
def remainder (a b : Float) : Float :=
  if a.isNaN || b.isNaN || a.isInf || b == 0.0 then 0.0 / 0.0
  else if b.isInf || a == 0.0 then a
  else
    let x := Decimal.Binary.ofBits a.toBits
    let y := Decimal.Binary.ofBits b.toBits
    let e := min x.exponent y.exponent
    let scaled (b : Decimal.Binary) : Nat := b.mantissa * Decimal.twoTo (b.exponent - e).toNat
    let m := scaled x % scaled y
    withSignOf (Decimal.Binary.exact ⟨m, e, false⟩).toFloat a

def isOdd (x : Float) : Bool := (toInt? x).any fun n => n % 2 = 1

/-- A power. A negative power of zero is infinite, and negative only for an odd power of a
negative zero; any other power of finite numbers that is too large is positive infinity. -/
def power (a b : Float) : Float :=
  if a == 0.0 && b < 0.0 then
    if isOdd b then withSignOf (1.0 / 0.0) a else 1.0 / 0.0
  else
    let r := Float.pow a b
    if r.isInf && a.isFinite && b.isFinite then 1.0 / 0.0 else r

/-- The text that always reads back: positional from `0.0001` up to sixteen whole digits, with a
point in whole numbers, otherwise with a signed exponent of at least two digits. -/
def exactNotation : Decimal.Notation :=
  ⟨-4, 15, true, 2, "nan", "inf"⟩

def exactText (x : Float) : String := exactNotation.write x

/-- The text that is shown: whole numbers in full digits and without a point. -/
def text (x : Float) : String :=
  match toInt? x with
  | some n => toString n
  | none => if x.isNaN then "NaN" else exactText x

end Pseudocode.Number
