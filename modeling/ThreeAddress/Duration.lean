import ThreeAddress.Decimal.Fixed

/-!
Lengths of time in nanoseconds, and their text: two places in the largest unit that does
not exceed the time. The unit is chosen before rounding.
-/

namespace ThreeAddress

structure Duration where
  nanos : Nat
  deriving DecidableEq

namespace Duration

/-- The size in nanoseconds and the name of the unit that the text is written in. -/
def scale (d : Duration) : Nat × String :=
  if 1000000000 ≤ d.nanos then (1000000000, "s")
  else if 1000000 ≤ d.nanos then (1000000, "ms")
  else if 1000 ≤ d.nanos then (1000, "µs")
  else (1, "ns")

def text (d : Duration) : String :=
  Decimal.fixed 2 d.nanos d.scale.1 ++ d.scale.2

end Duration

end ThreeAddress
