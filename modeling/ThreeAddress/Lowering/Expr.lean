import ThreeAddress.Lowering.State

/-!
Lowering of expressions. Literals, variables and elements are operands as they stand;
every other expression puts its value into a variable: into `dest` where the caller asks
for that, into a new temporary otherwise.
-/

namespace ThreeAddress.Lower

open Source

/-- A variable as an operand. An array is no value. -/
def scalar (name : String) : Lower Lowered := do
  match ← resolve name with
  | .var v => return ⟨.var v, ← typeOf (.var v)⟩
  | .array a => refuse (.typeMismatch (.arrayAsValue name) (← typeOf (.array a)) .none)

/-- The array that a name stands for. -/
def arrayNamed (name : String) : Lower ArrayId := do
  match ← resolve name with
  | .array a => return a
  | .var _ => refuse (.undeclaredVariable name (← get).scopes.current)

/-- The index of an element, which is an integer. An index that is an element itself is
first copied to a temporary. -/
def index (name : String) (value : Lowered) : Lower Operand := do
  expect (.index name) .int value.ty
  if value.operand.isScalar then return value.operand
  let temp ← freshTemporary .int
  let _ ← emit (.copy value.operand (.var temp))
  return .var temp

/-- The result of a binary operation on operands of one type. -/
def binary (op : BinaryOp) (lhs rhs : Lowered) (dest : Option VarId) : Lower Lowered := do
  if lhs.ty ≠ rhs.ty ∨ !lhs.ty.isValue then
    refuse (.typeMismatch (.operands op) lhs.ty rhs.ty)
  let ty := op.resultTy lhs.ty
  let target ← destination dest ty
  let _ ← emit (.compute op lhs.operand rhs.operand target)
  return ⟨.var target, ty⟩

def unary (op : UnaryOp) (value : Lowered) (dest : Option VarId) : Lower Lowered := do
  expectValue (.operand op) value.ty
  let ty := op.resultTy value.ty
  let target ← destination dest ty
  let _ ← emit (.apply op value.operand target)
  return ⟨.var target, ty⟩

/-- Where an assignment writes, and the type of what is kept there. -/
structure Target where
  place : Place
  ty : Ty

/-- Assigns a value; the assignment denotes its target. -/
def assign (place : Expr) (target : Target) (value : Lowered) : Lower Lowered := do
  expect (.assignment place.text) target.ty value.ty
  let _ ← emit (.copy value.operand target.place)
  return ⟨target.place.operand, target.ty⟩

/-- The signature of a function that is called with `count` arguments. -/
def callee (function : String) (count : Nat) : Lower Signature := do
  match (← get).listing.functions.get? function with
  | none => refuse (.undeclaredFunction function)
  | some signature =>
    if signature.params.length = count then return signature
    else refuse (.arityMismatch function signature.params.length count)

/-- Pushes the arguments and calls. A call without a value is denoted by its instruction. -/
def call (signature : Signature) (args : List Operand) (dest : Option VarId) :
    Lower Lowered := do
  args.forM fun value => do
    let _ ← emit (.push value)
  if signature.returns.isValue then
    let target ← destination dest signature.returns
    let _ ← emit (.call signature.label (some target))
    return ⟨.var target, signature.returns⟩
  else
    let id ← emit (.call signature.label none)
    return ⟨.instr id, .none⟩

mutual

/-- The value of an expression; a result that needs a variable goes to `dest` if given. -/
def expr (dest : Option VarId) : Expr → Lower Lowered
  | .int value => return ⟨.int value, .int⟩
  | .float value => return ⟨.float value, .float⟩
  | .var name => scalar name
  | .elem name inner => do
    let a ← arrayNamed name
    let position ← index name (← expr none inner)
    return ⟨.elem a position, ← typeOf (.array a)⟩
  | .paren inner => expr dest inner
  | .assign lhs rhs => do
    let value ← expr none rhs
    assign lhs.stripParens (← place lhs) value
  | .binary op lhs rhs => do
    let left ← expr none lhs
    let right ← expr none rhs
    binary op left right dest
  | .unary op operand => do
    unary op (← expr none operand) dest
  | .call function args => do
    let signature ← callee function args.length
    let values ← arguments function 1 signature.params args
    call signature values dest

/-- The target of an assignment: a variable or an element, in any parentheses. -/
def place : Expr → Lower Target
  | .paren inner => place inner
  | .var name => do
    match ← resolve name with
    | .var v => return ⟨.var v, ← typeOf (.var v)⟩
    | .array _ => refuse (.notAssignable name)
  | .elem name inner => do
    let a ← arrayNamed name
    let position ← index name (← expr none inner)
    return ⟨.elem a position, ← typeOf (.array a)⟩
  | other => refuse (.notAssignable other.text)

/-- The values of arguments, each of the type that its parameter has. -/
def arguments (function : String) (position : Nat) (params : List Ty) :
    List Expr → Lower (List Operand)
  | [] => return []
  | arg :: rest => do
    let value ← expr none arg
    expect (.argument position function) (params.headD .none) value.ty
    return value.operand :: (← arguments function (position + 1) params.tail rest)

end

end ThreeAddress.Lower
