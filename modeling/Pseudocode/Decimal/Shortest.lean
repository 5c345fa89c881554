/-!
# Shortest decimals

A finite binary number stands for the interval of reals that round to it. Its
shortest decimal is the decimal with the fewest digits in that interval; of two
such decimals the nearer one, and of two equally near ones the even one. All
comparisons are exact comparisons of naturals.
-/
namespace Pseudocode.Decimal

abbrev twoTo (n : Nat) : Nat := Nat.pow 2 n

abbrev fiveTo (n : Nat) : Nat := Nat.pow 5 n

abbrev tenTo (n : Nat) : Nat := Nat.pow 10 n

/-- A non-negative binary number `mantissa * 2 ^ exponent`. -/
structure Binary where
  mantissa : Nat
  exponent : Int
  /-- The number below is half as far away as the number above. -/
  narrowBelow : Bool
  deriving DecidableEq, Repr

/-- Magnitude of a finite number from its 64 bits; the sign bit is not read. -/
def Binary.ofBits (bits : UInt64) : Binary :=
  let biased := ((bits >>> 52) &&& 0x7FF).toNat
  let fraction := (bits &&& 0xFFFFFFFFFFFFF).toNat
  if biased = 0 then ⟨fraction, -1074, false⟩
  else ⟨twoTo 52 + fraction, (biased : Int) - 1075, fraction = 0 && 1 < biased⟩

/-- A non-negative decimal number `digits * 10 ^ exponent`. -/
structure Scientific where
  digits : Nat
  exponent : Int
  deriving DecidableEq, Repr

/-- Compares `a * 10 ^ i` with `n * 2 ^ j`. -/
def compareScaled (a : Nat) (i : Int) (n : Nat) (j : Int) : Ordering :=
  compare (a * tenTo i.toNat * twoTo (-j).toNat) (n * twoTo j.toNat * tenTo (-i).toNat)

/-- The decimal lies among the reals that round to the binary number. The ends of that interval
belong to it exactly when the mantissa is even. -/
def Binary.standsFor (x : Binary) (d : Scientific) : Bool :=
  let low := if x.narrowBelow then 4 * x.mantissa - 1 else 4 * x.mantissa - 2
  let fromLow := compareScaled d.digits d.exponent low (x.exponent - 2)
  let fromHigh := compareScaled d.digits d.exponent (4 * x.mantissa + 2) (x.exponent - 2)
  let closed := x.mantissa % 2 = 0
  (fromLow = .gt || closed && fromLow = .eq) && (fromHigh = .lt || closed && fromHigh = .eq)

/-- The number rounded down to a multiple of `10 ^ place`, counted in such multiples. -/
def Binary.floorAt (x : Binary) (place : Int) : Nat :=
  x.mantissa * twoTo x.exponent.toNat * tenTo (-place).toNat /
    (tenTo place.toNat * twoTo (-x.exponent).toNat)

/-- The least `k` with `x < 10 ^ k`, searched upwards from a lower bound. -/
def Binary.scaleFrom (x : Binary) : Nat → Int → Int
  | 0, k => k
  | steps + 1, k => if compareScaled 1 k x.mantissa x.exponent = .gt then k
      else x.scaleFrom steps (k + 1)

/-- The least `k` with `x < 10 ^ k`, for a positive number. -/
def Binary.scale (x : Binary) : Int :=
  let magnitude := (x.mantissa.log2 : Int) + x.exponent
  x.scaleFrom 4 (magnitude * 30103 / 100000 - 1)

/-- The decimals of one place next to the number that stand for it: the nearer one if both do,
the even one if they are equally near. -/
def Binary.nearestAt (x : Binary) (place : Int) : Option Scientific :=
  let below : Scientific := ⟨x.floorAt place, place⟩
  let above : Scientific := ⟨x.floorAt place + 1, place⟩
  match x.standsFor below, x.standsFor above with
  | false, false => none
  | true, false => some below
  | false, true => some above
  | true, true =>
      match compareScaled (2 * below.digits + 1) place (2 * x.mantissa) x.exponent with
      | .gt => some below
      | .lt => some above
      | .eq => some (if below.digits % 2 = 0 then below else above)

/-- Moves trailing zeros of the digits into the exponent. -/
def Scientific.stripFrom : Nat → Scientific → Scientific
  | 0, d => d
  | steps + 1, d =>
      if d.digits ≠ 0 ∧ d.digits % 10 = 0 then stripFrom steps ⟨d.digits / 10, d.exponent + 1⟩
      else d

/-- The first place, from the given digit count on, that has a decimal for the number. -/
def Binary.shortestFrom (x : Binary) (scale : Int) : Nat → Nat → Option Scientific
  | 0, _ => none
  | steps + 1, count =>
      (x.nearestAt (scale - count)).or (x.shortestFrom scale steps (count + 1))

def Binary.exact (x : Binary) : Scientific :=
  ⟨x.mantissa * twoTo x.exponent.toNat * fiveTo (-x.exponent).toNat, min x.exponent 0⟩

/-- The shortest decimal of a positive number. Seventeen digits are always enough. -/
def Binary.shortest (x : Binary) : Scientific :=
  ((x.shortestFrom x.scale 17 1).getD x.exact).stripFrom 20

end Pseudocode.Decimal
