import ThreeAddress.Decimal.Shortest

/-!
Single-precision binary numbers, known by their bit pattern. Two patterns are the same
number here only if all 32 bits agree, so the two zeros differ and so do NaNs with
different payloads; `eq`, `lt` and `le` are the comparisons of the arithmetic.

The text has the fewest digits that read back. It is positional while the leading digit
stands between `10 ^ -4` and `10 ^ 15`, with at least one digit after the point, and
scientific otherwise.
-/

namespace ThreeAddress

structure Binary32 where
  bits : UInt32
  deriving DecidableEq

namespace Binary32

def toFloat (x : Binary32) : Float32 := Float32.ofBits x.bits

def ofFloat (x : Float32) : Binary32 := ⟨x.toBits⟩

def add (x y : Binary32) : Binary32 := ofFloat (x.toFloat + y.toFloat)

def sub (x y : Binary32) : Binary32 := ofFloat (x.toFloat - y.toFloat)

def mul (x y : Binary32) : Binary32 := ofFloat (x.toFloat * y.toFloat)

def div (x y : Binary32) : Binary32 := ofFloat (x.toFloat / y.toFloat)

def eq (x y : Binary32) : Bool := x.toFloat == y.toFloat

def lt (x y : Binary32) : Bool := x.toFloat < y.toFloat

def le (x y : Binary32) : Bool := x.toFloat ≤ y.toFloat

/-! ### Fields of the pattern -/

def negative (x : Binary32) : Bool := x.bits >>> 31 = 1

/-- The stored exponent: 0 for subnormals, 255 for infinities and NaNs. -/
def biased (x : Binary32) : Nat := (x.bits >>> 23 &&& 0xff).toNat

def fraction (x : Binary32) : Nat := (x.bits &&& 0x7fffff).toNat

/-- The shortest decimal of a finite magnitude other than zero. -/
def magnitude (x : Binary32) : Decimal.Scaled :=
  if x.biased = 0 then Decimal.shortest x.fraction (-149) false 9 50
  else Decimal.shortest (0x800000 + x.fraction) (x.biased - 150)
    (x.fraction = 0 && x.biased != 1) 9 50

/-! ### Text -/

/-- Exponents of the leading digit that are written positionally. -/
def positional (leading : Int) : Bool := -4 ≤ leading && leading ≤ 15

def zeros (n : Nat) : String := String.ofList (List.replicate n '0')

/-- The number with a point and at least one digit on either side of it. -/
def positionalText (s : Decimal.Scaled) : String :=
  let digits := toString s.digits
  if 0 ≤ s.exponent then digits ++ zeros s.exponent.toNat ++ ".0"
  else
    let places := (-s.exponent).toNat
    let digits := zeros (places + 1 - digits.length) ++ digits
    let cut := digits.length - places
    String.ofList (digits.toList.take cut) ++ "." ++ String.ofList (digits.toList.drop cut)

/-- One digit before the point, and the exponent of ten after `e`. -/
def scientificText (s : Decimal.Scaled) (leading : Int) : String :=
  let digits := (toString s.digits).toList
  let rest := digits.drop 1
  String.ofList (digits.take 1) ++ (if rest.isEmpty then "" else "." ++ String.ofList rest) ++
    "e" ++ toString leading

def magnitudeText (s : Decimal.Scaled) : String :=
  let leading := s.exponent + (toString s.digits).length - 1
  if positional leading then positionalText s else scientificText s leading

def text (x : Binary32) : String :=
  if x.biased = 255 ∧ x.fraction ≠ 0 then "NaN"
  else
    let size :=
      if x.biased = 255 then "inf"
      else if x.biased = 0 ∧ x.fraction = 0 then "0.0"
      else magnitudeText x.magnitude
    if x.negative then "-" ++ size else size

end Binary32

end ThreeAddress
