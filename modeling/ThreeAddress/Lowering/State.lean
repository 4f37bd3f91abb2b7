import ThreeAddress.Code.Listing
import ThreeAddress.Source.Printer

/-!
The state of lowering and its elementary steps. Instructions are stamped with the current
block; a block is left after an instruction that ends it and before a label, unless it is
still empty. `unreachable` says that the last instruction passes control to no successor in
the stream, so that what follows can only be reached through a label.
-/

namespace ThreeAddress

/-- The function whose body is being lowered. -/
structure FunctionContext where
  name : String
  returns : Ty
  deriving DecidableEq

structure Lowering where
  listing : Listing
  scopes : Scopes
  block : BlockId
  blockStarted : Bool
  unreachable : Bool
  function : Option FunctionContext

/-- A step of lowering changes the state or refuses the program. -/
abbrev Lower := StateT Lowering (Except Failure)

/-- An operand together with the type of its value. -/
structure Lowered where
  operand : Operand
  ty : Ty
  deriving DecidableEq

namespace Lowering

def start : Lowering :=
  { listing := .empty
    scopes := .empty
    block := 0
    blockStarted := false
    unreachable := false
    function := none }

/-- Leaves the current block, unless it is empty. -/
def leaveBlock (s : Lowering) : Lowering :=
  if s.blockStarted then { s with block := s.block + 1, blockStarted := false } else s

/-- Appends an instruction to the current block. -/
def emit (s : Lowering) (action : Action) : Except Fault (Lowering × InstrId) := do
  let (listing, id) ← s.listing.emit action s.block
  let s := { s with listing, blockStarted := true, unreachable := action.operator.endsPath }
  return (if action.operator.endsBlock then s.leaveBlock else s, id)

/-- Starts a block with a label. -/
def startAt (s : Lowering) (label : LabelId) : Except Fault Lowering := do
  let (s, site) ← s.leaveBlock.emit (.label label)
  let labels ← s.listing.labels.place label site
  return { s with listing := { s.listing with labels } }

def freshLabel (s : Lowering) : Lowering × LabelId :=
  let (labels, label) := s.listing.labels.synthetic
  ({ s with listing := { s.listing with labels } }, label)

def freshTemporary (s : Lowering) (ty : Ty) : Lowering × VarId :=
  let (vars, v) := s.listing.vars.temporary ty .none
  ({ s with listing := { s.listing with vars } }, v)

def freshVariable (s : Lowering) (name : String) (ty : Ty) (scope : Scope) (marks : Marks) :
    Lowering × VarId :=
  let (vars, v) := s.listing.vars.declare name ty scope marks
  ({ s with listing := { s.listing with vars } }, v)

def freshArray (s : Lowering) (decl : ArrayDecl) : Lowering × ArrayId :=
  let (arrays, a) := s.listing.arrays.declare decl
  ({ s with listing := { s.listing with arrays } }, a)

def bind (s : Lowering) (name : String) (symbol : Symbol) : Except Diagnostic Lowering := do
  let scopes ← s.scopes.bind name symbol
  return { s with scopes }

def declareFunction (s : Lowering) (p : Source.Prototype) (define : Bool) :
    Except Diagnostic (Lowering × Signature) := do
  let (functions, labels, signature) ← s.listing.functions.declare s.listing.labels p.name
    p.returns.ty (p.params.map (·.ty.ty)) define
  return ({ s with listing := { s.listing with functions, labels } }, signature)

/-- The symbol that a name stands for. -/
def resolve (s : Lowering) (name : String) : Except Diagnostic Symbol :=
  match s.scopes.lookup s.listing.vars name with
  | some symbol => return symbol
  | none => throw (.undeclaredVariable name s.scopes.current)

end Lowering

namespace Lower

variable {α : Type}

def refuse (d : Diagnostic) : Lower α := throw (.refused d)

/-- Runs a step that can break a precondition. -/
def attempt (step : Lowering → Except Fault (Lowering × α)) : Lower α := fun s => do
  let (s, a) ← (step s : Except Fault (Lowering × α))
  return (a, s)

/-- Runs a step that can refuse the program. -/
def checked (step : Lowering → Except Diagnostic (Lowering × α)) : Lower α := fun s => do
  let (s, a) ← (step s : Except Diagnostic (Lowering × α))
  return (a, s)

/-- Runs a step that always succeeds. -/
def always (step : Lowering → Lowering × α) : Lower α := fun s =>
  let (s, a) := step s
  return (a, s)

def emit (action : Action) : Lower InstrId := attempt (·.emit action)

def startAt (label : LabelId) : Lower Unit :=
  attempt fun s => return (← s.startAt label, ())

def freshLabel : Lower LabelId := always Lowering.freshLabel

def freshTemporary (ty : Ty) : Lower VarId := always (·.freshTemporary ty)

def bind (name : String) (symbol : Symbol) : Lower Unit :=
  checked fun s => return (← s.bind name symbol, ())

def pushScope : Lower Unit := modify fun s => { s with scopes := s.scopes.push }

def popScope : Lower Unit := modify fun s => { s with scopes := s.scopes.pop }

def resolve (name : String) : Lower Symbol := checked fun s => return (s, ← s.resolve name)

/-- The type of an operand that was just made. -/
def typeOf (operand : Operand) : Lower Ty := attempt fun s => return (s, ← s.listing.typeOf operand)

/-- Requires two types to agree. -/
def expect (context : TypeContext) (expected found : Ty) : Lower Unit :=
  if expected = found then pure () else refuse (.typeMismatch context expected found)

/-- Requires a type of values where any such type will do. -/
def expectValue (context : TypeContext) (found : Ty) : Lower Unit :=
  if found.isValue then pure () else refuse (.typeMismatch context .int found)

/-- The type of a declared variable, array or parameter, which has values. -/
def valueTy (ty : Source.DeclTy) (name : String) : Lower Ty := do
  expectValue (.declaration name) ty.ty
  return ty.ty

/-- The destination of a result: the one asked for, or a new temporary. -/
def destination (dest : Option VarId) (ty : Ty) : Lower VarId :=
  match dest with
  | some v => return v
  | none => freshTemporary ty

end Lower

end ThreeAddress
