/-!
Types of values and the operators of three-address code, with their texts, their classes
and the type of their result.
-/

namespace ThreeAddress

/-- The type `none` is that of what yields no value. -/
inductive Ty
  | int
  | float
  | none
  deriving DecidableEq

namespace Ty

def all : List Ty := [int, float, none]

def text : Ty → String
  | int => "int"
  | float => "float"
  | none => "none"

def isValue : Ty → Bool
  | none => false
  | _ => true

end Ty

inductive BinaryOp
  | add | sub | mul | div
  | eq | ne | le | ge | lt | gt
  deriving DecidableEq

namespace BinaryOp

def all : List BinaryOp := [add, sub, mul, div, eq, ne, le, ge, lt, gt]

def text : BinaryOp → String
  | add => "+"
  | sub => "-"
  | mul => "*"
  | div => "/"
  | eq => "=="
  | ne => "!="
  | le => "<="
  | ge => ">="
  | lt => "<"
  | gt => ">"

def isArithmetic : BinaryOp → Bool
  | add | sub | mul | div => true
  | _ => false

def isComparison (op : BinaryOp) : Bool := !op.isArithmetic

/-- Arithmetic keeps the type of its operands, a comparison yields an integer. -/
def resultTy (op : BinaryOp) (operand : Ty) : Ty := if op.isArithmetic then operand else .int

end BinaryOp

inductive UnaryOp
  | minus | not
  deriving DecidableEq

namespace UnaryOp

def text : UnaryOp → String
  | minus => "-"
  | not => "!"

def resultTy (op : UnaryOp) (operand : Ty) : Ty :=
  match op with
  | minus => operand
  | not => .int

end UnaryOp

inductive Operator
  | binary (op : BinaryOp)
  | assign
  | unary (op : UnaryOp)
  | jump
  | jumpFalse
  | label
  | push
  | call
  | param
  | ret
  deriving DecidableEq

namespace Operator

/-- All operators in their order. -/
def all : List Operator :=
  BinaryOp.all.map binary ++ [assign, unary .minus, unary .not] ++
    [jump, jumpFalse, label, push, call, param, ret]

/-- The number of smaller operators. -/
def rank (op : Operator) : Nat := all.idxOf op

def text : Operator → String
  | binary op => op.text
  | assign => "="
  | unary op => op.text
  | jump => "jump"
  | jumpFalse => "jumpfalse"
  | label => "label"
  | push => "push"
  | call => "call"
  | param => "param"
  | ret => "return"

def isBinary : Operator → Bool
  | binary _ => true
  | _ => false

def isArithmetic : Operator → Bool
  | binary op => op.isArithmetic
  | _ => false

def isComparison : Operator → Bool
  | binary op => op.isComparison
  | _ => false

def isUnary : Operator → Bool
  | unary _ => true
  | _ => false

def isBranch : Operator → Bool
  | jump | jumpFalse => true
  | _ => false

/-- Whether the instruction after one with this operator starts a new block. -/
def endsBlock : Operator → Bool
  | jump | jumpFalse | ret => true
  | _ => false

/-- Whether control never passes on to the next instruction. -/
def endsPath : Operator → Bool
  | jump | ret => true
  | _ => false

def resultTy (op : Operator) (operand : Ty) : Ty :=
  match op with
  | binary op => op.resultTy operand
  | unary op => op.resultTy operand
  | assign | param => operand
  | _ => .none

end Operator

end ThreeAddress
