/-!
The shortest decimal that reads back as a given binary number.

The number is `m * 2 ^ q` with `0 < m`. All reals nearer to it than to its neighbours
round to it; the two ends of that interval do as well when `m` is even. For one digit,
two digits and so on, the two neighbours of the number on the decimal grid of that many
digits are tested against the interval in exact arithmetic. The first grid with a hit
wins, and of two hits the nearer one.
-/

namespace ThreeAddress.Decimal

/-- The real number `digits * 10 ^ exponent`. -/
structure Scaled where
  digits : Nat
  exponent : Int
  deriving DecidableEq

/-- The positive fraction `num / den` and the interval of reals that round to it, over the
same denominator. -/
structure Rounding where
  num : Nat
  low : Nat
  high : Nat
  den : Nat
  closed : Bool

namespace Rounding

/-- The interval of `m * 2 ^ q`. Below a power of two the neighbours are half as far
apart, which `narrowBelow` says. -/
def ofBinary (m : Nat) (q : Int) (narrowBelow : Bool) : Rounding :=
  let grow := Nat.pow 2 (q - 2).toNat
  { num := 4 * m * grow
    low := (4 * m - if narrowBelow then 1 else 2) * grow
    high := (4 * m + 2) * grow
    den := Nat.pow 2 (2 - q).toNat
    closed := m % 2 = 0 }

/-- The same fraction and interval, counted in units of `10 ^ t`. -/
def inUnitsOf (r : Rounding) (t : Int) : Rounding :=
  let grow := Nat.pow 10 (-t).toNat
  { r with
    num := r.num * grow
    low := r.low * grow
    high := r.high * grow
    den := r.den * Nat.pow 10 t.toNat }

def admits (r : Rounding) (c : Nat) : Bool :=
  let c := c * r.den
  if r.closed then r.low ≤ c && c ≤ r.high else r.low < c && c < r.high

/-- The grid point that rounds to the number, if one of its two neighbours does. Of two
at one distance the upper is taken. -/
def onGrid (r : Rounding) : Option Nat :=
  let c := r.num / r.den
  match r.admits c, r.admits (c + 1) with
  | true, true => some (if 2 * (r.num % r.den) < r.den then c else c + 1)
  | true, false => some c
  | false, true => some (c + 1)
  | false, false => none

/-- The exponent of the leading decimal digit, sought upwards from `-fuel`. -/
def leading (r : Rounding) : (fuel : Nat) → Int → Int
  | 0, k => k
  | fuel + 1, k =>
    let next := r.inUnitsOf (k + 1)
    if next.den ≤ next.num then leading r fuel (k + 1) else k

end Rounding

/-- The same number without trailing zeros among the digits. -/
def Scaled.trim (s : Scaled) : (fuel : Nat) → Scaled
  | 0 => s
  | fuel + 1 =>
    if s.digits ≠ 0 ∧ s.digits % 10 = 0 then trim ⟨s.digits / 10, s.exponent + 1⟩ fuel else s

/-- The digits tried from `n` upwards, `fuel` times; `leading` is the exponent of the first
digit. -/
def shortestFrom (r : Rounding) (leading : Int) : (fuel n : Nat) → Scaled
  | 0, n => ⟨(r.inUnitsOf (leading - n)).num / (r.inUnitsOf (leading - n)).den, leading - n⟩
  | fuel + 1, n =>
    match (r.inUnitsOf (leading - n)).onGrid with
    | some c => ⟨c, leading - n⟩
    | none => shortestFrom r leading fuel (n + 1)

/-- The fewest digits that read back as `m * 2 ^ q`, at most `precision` of them. Every
number with leading digit between `10 ^ -range` and `10 ^ range` is found. -/
def shortest (m : Nat) (q : Int) (narrowBelow : Bool) (precision range : Nat) : Scaled :=
  let r := Rounding.ofBinary m q narrowBelow
  let leading := r.leading (2 * range) (-range)
  (shortestFrom r leading precision 0).trim precision

end ThreeAddress.Decimal
