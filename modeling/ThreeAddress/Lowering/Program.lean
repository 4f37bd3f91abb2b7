import ThreeAddress.Lowering.Expr

/-!
Lowering of statements and programs. A statement that no path reaches is dropped, so the
code after a jump or a return always starts with a label.
-/

namespace ThreeAddress.Lower

open Source

/-- The operand that a branch tests. -/
def condition (test : Expr) : Lower Operand := do
  let value ← expr none test
  expectValue .condition value.ty
  return value.operand

/-- Refuses a name that the innermost scope binds already. -/
def requireFree (name : String) : Lower Scope := do
  let s ← get
  if s.scopes.isBoundLocally name then refuse (.duplicateDeclaration name s.scopes.current)
  return s.scopes.current

/-- Puts the value of an initializer into a variable that is not in scope yet. -/
def initVariable (name : String) (ty : Ty) (v : VarId) (init : Expr) : Lower Unit := do
  let value ← expr (some v) init
  expect (.initializer name) ty value.ty
  if value.operand ≠ .var v then
    let _ ← emit (.copy value.operand (.var v))

def declare (ty : DeclTy) (name : String) (init : Option Expr) : Lower Unit := do
  let ty ← valueTy ty name
  let scope ← requireFree name
  let v ← always (·.freshVariable name ty scope .none)
  match init with
  | some init => initVariable name ty v init
  | none => pure ()
  bind name (.var v)

def declareArray (ty : DeclTy) (name : String) (length : Nat) : Lower Unit := do
  let element ← valueTy ty name
  let scope ← requireFree name
  let a ← always (·.freshArray { name, element, length, scope })
  bind name (.array a)

/-- Returns; inside a function the value must have the declared type. -/
def ret (value : Option Lowered) : Lower Unit := do
  match (← get).function with
  | some f => expect (.returnFrom f.name) f.returns (value.elim .none Lowered.ty)
  | none => pure ()
  let _ ← emit (.ret (value.map Lowered.operand))

/-- Ends the branch of a conditional that does not fall through to the join: jumps to a new
label, unless the path has ended. -/
def jumpToJoin : Lower (Option LabelId) := do
  if (← get).unreachable then return none
  let join ← freshLabel
  let _ ← emit (.jump join)
  return some join

def jumpUnlessEnded (label : LabelId) : Lower Unit := do
  if !(← get).unreachable then
    let _ ← emit (.jump label)

/-- Runs a step, unless no path reaches it. -/
def whenReached (step : Lower Unit) : Lower Unit := do
  if !(← get).unreachable then step

mutual

def stmt : Stmt → Lower Unit
  | .expr e => whenReached do
    let _ ← expr none e
  | .compound body => whenReached do
    pushScope
    stmts body
    popScope
  | .ifThen test body => whenReached do
    let cond ← condition test
    let onFalse ← freshLabel
    let _ ← emit (.jumpFalse cond onFalse)
    stmt body
    startAt onFalse
  | .ifElse test onTrue onFalse => whenReached do
    let cond ← condition test
    let other ← freshLabel
    let _ ← emit (.jumpFalse cond other)
    stmt onTrue
    let join ← jumpToJoin
    startAt other
    stmt onFalse
    join.forM startAt
  | .while test body => whenReached do
    let head ← freshLabel
    startAt head
    let cond ← condition test
    let exit ← freshLabel
    let _ ← emit (.jumpFalse cond exit)
    stmt body
    jumpUnlessEnded head
    startAt exit
  | .decl ty name init => whenReached (declare ty name init)
  | .array ty name length => whenReached (declareArray ty name length)
  | .ret none => whenReached (ret none)
  | .ret (some value) => whenReached do
    ret (some (← expr none value))

def stmts : List Stmt → Lower Unit
  | [] => pure ()
  | s :: rest => do
    stmt s
    stmts rest

end

/-- Declares a parameter in the scope of its function. -/
def param (p : Param) : Lower Unit := do
  let ty ← valueTy p.ty p.name
  let v ← always fun s => s.freshVariable p.name ty s.scopes.current .ofParameter
  bind p.name (.var v)
  let _ ← emit (.param v)

def declareFunction (p : Prototype) (define : Bool) : Lower Signature :=
  checked (·.declareFunction p define)

/-- A function starts with its label and its parameters and ends with a return. -/
def function (p : Prototype) (body : Stmt) : Lower Unit := do
  let signature ← declareFunction p true
  startAt signature.label
  pushScope
  p.params.forM param
  modify fun s => { s with function := some ⟨p.name, p.returns.ty⟩ }
  stmt body
  if !(← get).unreachable then
    let _ ← emit (.ret none)
  modify fun s => { s with function := none }
  popScope

def item : Item → Lower Unit
  | .prototype p => do
    let _ ← declareFunction p false
  | .function p body => function p body

def program : Program → Lower Unit
  | .stmt s => stmt s
  | .items items => items.forM item

end ThreeAddress.Lower

namespace ThreeAddress

/-- The listing of a program, or why there is none. -/
def Listing.ofProgram (p : Source.Program) : Except Failure Listing := do
  let ((), s) ← (Lower.program p).run .start
  return s.listing

end ThreeAddress
