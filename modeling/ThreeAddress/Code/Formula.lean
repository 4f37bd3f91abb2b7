import ThreeAddress.Code.Printer

/-!
Formulas: what a binary operation computes, whatever it is stored to. Two computations of
one formula yield one value as long as none of its variables is assigned between them.
Float literals are told apart by their bits.
-/

namespace ThreeAddress

inductive Atom
  | int (value : Int32)
  | float (value : Binary32)
  | var (v : VarId)
  deriving DecidableEq

namespace Atom

def ofOperand (l : Listing) : Operand → Option Atom
  | .int value => some (.int value)
  | .float value => some (.float value)
  | .var v => (l.resolve (.var v)).map .var
  | .instr i => (l.resolve (.instr i)).map .var
  | .array _ | .elem _ _ | .label _ => none

def var? : Atom → Option VarId
  | var v => some v
  | _ => none

def operand : Atom → Operand
  | int value => .int value
  | float value => .float value
  | var v => .var v

/-- Integers come before floats and floats before variables; within a class the value,
the bit pattern or the number decides. -/
def rank : Atom → Nat × Int
  | int value => (0, value.toInt)
  | float value => (1, value.bits.toNat)
  | var v => (2, v)

instance : Ord Atom where
  compare a b := (compare a.rank.1 b.rank.1).then (compare a.rank.2 b.rank.2)

end Atom

structure Formula where
  lhs : Atom
  op : Operator
  rhs : Atom
  deriving DecidableEq

namespace Formula

/-- The formula of a binary operation on scalars. -/
def ofAction (l : Listing) : Action → Option Formula
  | .compute op lhs rhs _ =>
    if lhs.isScalar && rhs.isScalar then do
      let left ← Atom.ofOperand l lhs
      let right ← Atom.ofOperand l rhs
      return ⟨left, .binary op, right⟩
    else none
  | _ => none

def reads (f : Formula) (v : VarId) : Bool := f.lhs.var? == some v || f.rhs.var? == some v

def isConstant (f : Formula) : Bool := f.lhs.var?.isNone && f.rhs.var?.isNone

/-- By left operand, then operator, then right operand. -/
instance : Ord Formula where
  compare a b := ((compare a.lhs b.lhs).then (compare a.op.rank b.op.rank)).then (compare a.rhs b.rhs)

def render (f : Formula) (l : Listing) : String :=
  l.showOperand f.lhs.operand ++ " " ++ f.op.text ++ " " ++ l.showOperand f.rhs.operand

/-- The text of a formula whose variables exist. -/
def text (f : Formula) (l : Listing) : Except Fault String :=
  if l.prints f.lhs.operand && l.prints f.rhs.operand then return f.render l else throw .outOfRange

end Formula

end ThreeAddress
