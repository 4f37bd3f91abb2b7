import ThreeAddress.Code.Listing

/-!
The text of operands, instructions and listings. An operand that refers to nothing has
no text of its own; the printer writes its bare number, and `operandText` refuses it.
-/

namespace ThreeAddress.Listing

def showOperand (l : Listing) : Operand → String
  | .int value => toString value.toInt
  | .float value => value.text
  | .var v => l.vars.textOf v
  | .array a => l.arrays.textOf a
  | .elem a index => l.arrays.textOf a ++ "[" ++ l.showOperand index ++ "]"
  | .instr i => (l.resolve (.instr i)).elim (instrName i) l.vars.textOf
  | .label lab => l.labels.textOf lab

/-- Whether all that the text of an operand names exists. -/
def prints (l : Listing) : Operand → Bool
  | .int _ | .float _ => true
  | .var v => (l.vars.get? v).isSome
  | .array a => (l.arrays.get? a).isSome
  | .elem a index => (l.arrays.get? a).isSome && l.prints index
  | .instr i => (l.resolve (.instr i)).all fun v => (l.vars.get? v).isSome
  | .label lab => (l.labels.get? lab).isSome

def operandText (l : Listing) (operand : Operand) : Except Fault String :=
  if l.prints operand then return l.showOperand operand else throw .outOfRange

/-- The line of an action. -/
def showAction (l : Listing) (a : Action) : String :=
  let text := a.operator.text
  match a with
  | .compute _ lhs rhs target =>
    l.vars.textOf target ++ " = " ++ l.showOperand lhs ++ " " ++ text ++ " " ++ l.showOperand rhs
  | .apply _ operand target => l.vars.textOf target ++ " = " ++ text ++ l.showOperand operand
  | .copy value target => l.showOperand target.operand ++ " = " ++ l.showOperand value
  | .label lab => l.labels.textOf lab ++ ":"
  | .jump lab => text ++ " " ++ l.labels.textOf lab
  | .jumpFalse cond lab => text ++ " " ++ l.showOperand cond ++ " " ++ l.labels.textOf lab
  | .push value => text ++ " " ++ l.showOperand value
  | .call callee none => text ++ " " ++ l.labels.textOf callee
  | .call callee (some target) =>
    l.vars.textOf target ++ " = " ++ text ++ " " ++ l.labels.textOf callee
  | .param target => text ++ " " ++ l.vars.textOf target
  | .ret none => text
  | .ret (some value) => text ++ " " ++ l.showOperand value

/-- One line for each instruction of the stream. -/
def text (l : Listing) : String :=
  String.join (l.instrs.map fun instr => l.showAction instr.action ++ "\n")

end ThreeAddress.Listing
