/-!
Numbers written with a fixed count of decimal places.
-/

namespace ThreeAddress.Decimal

/-- The quotient rounded to the nearest integer, a half going to the even neighbour. -/
def roundHalfEven (num den : Nat) : Nat :=
  let q := num / den
  let twice := 2 * (num % den)
  if twice < den then q
  else if den < twice then q + 1
  else q + q % 2

/-- The digits of `n`, filled up with leading zeros to `width`. -/
def padded (width n : Nat) : String :=
  let digits := toString n
  String.ofList (List.replicate (width - digits.length) '0') ++ digits

/-- The quotient `num / den` with `places` digits after the point. -/
def fixed (places num den : Nat) : String :=
  let unit := Nat.pow 10 places
  let scaled := roundHalfEven (num * unit) den
  toString (scaled / unit) ++ "." ++ padded places (scaled % unit)

end ThreeAddress.Decimal
