import ThreeAddress.Code.Formula

/-!
Arithmetic on literals. Integers are 32 bits wide and wrap; their quotient is truncated,
and there is none for a zero divisor or for a quotient that does not fit. A comparison
yields 1 or 0.
-/

namespace ThreeAddress

namespace Int32Arith

def ofBool (b : Bool) : Int32 := if b then 1 else 0

/-- The quotient, unless the divisor is zero or the quotient does not fit. -/
def div? (a b : Int32) : Option Int32 :=
  if b = 0 ∨ (a = Int32.minValue ∧ b = -1) then none else some (a / b)

/-- The value of a binary operation on integers. -/
def eval (op : BinaryOp) (a b : Int32) : Option Int32 :=
  match op with
  | .add => some (a + b)
  | .sub => some (a - b)
  | .mul => some (a * b)
  | .div => div? a b
  | .eq => some (ofBool (a == b))
  | .ne => some (ofBool (a != b))
  | .le => some (ofBool (a ≤ b))
  | .ge => some (ofBool (b ≤ a))
  | .lt => some (ofBool (a < b))
  | .gt => some (ofBool (b < a))

end Int32Arith

namespace Binary32Arith

open Int32Arith (ofBool)

/-- The value of a binary operation on floats: a float, or the integer of a comparison. -/
def eval (op : BinaryOp) (a b : Binary32) : Atom :=
  match op with
  | .add => .float (a.add b)
  | .sub => .float (a.sub b)
  | .mul => .float (a.mul b)
  | .div => .float (a.div b)
  | .eq => .int (ofBool (a.eq b))
  | .ne => .int (ofBool (!a.eq b))
  | .le => .int (ofBool (a.le b))
  | .ge => .int (ofBool (b.le a))
  | .lt => .int (ofBool (a.lt b))
  | .gt => .int (ofBool (b.lt a))

end Binary32Arith

/-- The literal that a computation on two literals yields. -/
def Formula.fold? (f : Formula) : Option Atom :=
  match f.lhs, f.op, f.rhs with
  | .int a, .binary op, .int b => (Int32Arith.eval op a b).map .int
  | .float a, .binary op, .float b => some (Binary32Arith.eval op a b)
  | _, _, _ => none

end ThreeAddress
