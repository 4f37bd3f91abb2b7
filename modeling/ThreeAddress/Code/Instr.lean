import ThreeAddress.Binary32
import ThreeAddress.Code.Scopes

/-!
Operands and instructions. An instruction performs one action; the views `operator`,
`arg1`, `arg2` and `target` show every action in the same four columns.
-/

namespace ThreeAddress

abbrev InstrId := Nat
abbrev LabelId := Nat
abbrev BlockId := Nat

/-- The text of an instruction's number. -/
def instrName (i : InstrId) : String := s!"#{i}"

/-- The text of a block's number. -/
def blockName (b : BlockId) : String := Digraph.nodeName b

/-- What an instruction refers to; `instr` stands for the value that an instruction
computes. -/
inductive Operand
  | int (value : Int32)
  | float (value : Binary32)
  | var (v : VarId)
  | array (a : ArrayId)
  | elem (a : ArrayId) (index : Operand)
  | instr (i : InstrId)
  | label (l : LabelId)
  deriving DecidableEq

namespace Operand

def isLiteral : Operand → Bool
  | int _ | float _ => true
  | _ => false

def isScalar : Operand → Bool
  | int _ | float _ | var _ | instr _ => true
  | _ => false

def var? : Operand → Option VarId
  | var v => some v
  | _ => none

def label? : Operand → Option LabelId
  | label l => some l
  | _ => none

end Operand

/-- What an assignment writes to. -/
inductive Place
  | var (v : VarId)
  | elem (a : ArrayId) (index : Operand)
  deriving DecidableEq

namespace Place

def operand : Place → Operand
  | var v => .var v
  | elem a index => .elem a index

def var? : Place → Option VarId
  | var v => some v
  | elem _ _ => none

end Place

inductive Action
  | compute (op : BinaryOp) (lhs rhs : Operand) (target : VarId)
  | apply (op : UnaryOp) (operand : Operand) (target : VarId)
  | copy (value : Operand) (target : Place)
  | label (l : LabelId)
  | jump (l : LabelId)
  | jumpFalse (cond : Operand) (l : LabelId)
  | push (value : Operand)
  | call (callee : LabelId) (target : Option VarId)
  | param (target : VarId)
  | ret (value : Option Operand)
  deriving DecidableEq

namespace Action

def operator : Action → Operator
  | compute op _ _ _ => .binary op
  | apply op _ _ => .unary op
  | copy _ _ => .assign
  | label _ => .label
  | jump _ => .jump
  | jumpFalse _ _ => .jumpFalse
  | push _ => .push
  | call _ _ => .call
  | param _ => .param
  | ret _ => .ret

def arg1 : Action → Option Operand
  | compute _ lhs _ _ => some lhs
  | apply _ operand _ => some operand
  | copy value _ => some value
  | label l => some (.label l)
  | jump l => some (.label l)
  | jumpFalse cond _ => some cond
  | push value => some value
  | call callee _ => some (.label callee)
  | param _ => none
  | ret value => value

def arg2 : Action → Option Operand
  | compute _ _ rhs _ => some rhs
  | jumpFalse _ l => some (.label l)
  | _ => none

def target : Action → Option Operand
  | compute _ _ _ target => some (.var target)
  | apply _ _ target => some (.var target)
  | copy _ target => some target.operand
  | call _ target => target.map .var
  | param target => some (.var target)
  | _ => none

/-- The arguments that are present. -/
def args (a : Action) : List Operand := a.arg1.toList ++ a.arg2.toList

/-- The variable that the action assigns. -/
def targetVar (a : Action) : Option VarId := a.target.bind Operand.var?

/-- The label that a branch goes to. -/
def branchTarget : Action → Option LabelId
  | jump l => some l
  | jumpFalse _ l => some l
  | _ => none

def definedLabel : Action → Option LabelId
  | label l => some l
  | _ => none

def isScalarBinary : Action → Bool
  | compute _ lhs rhs _ => lhs.isScalar && rhs.isScalar
  | _ => false

end Action

/-- An action with its number, its type and the block that it is stamped with. -/
structure Instr where
  id : InstrId
  action : Action
  ty : Ty
  block : BlockId
  deriving DecidableEq

end ThreeAddress
