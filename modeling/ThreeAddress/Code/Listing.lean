import ThreeAddress.Code.Tables

/-!
A listing is a program in three-address code: the instructions by number, the stream in
which they are executed, and the tables that operands refer to.
-/

namespace ThreeAddress

structure Listing where
  arena : Array Instr
  stream : List InstrId
  vars : Variables
  arrays : Arrays
  functions : Functions
  labels : Labels
  deriving DecidableEq

namespace Listing

def empty : Listing :=
  { arena := #[]
    stream := []
    vars := .empty
    arrays := .empty
    functions := .empty
    labels := .empty }

def length (l : Listing) : Nat := l.stream.length

def isEmpty (l : Listing) : Bool := l.stream.isEmpty

def instr? (l : Listing) (i : InstrId) : Option Instr := l.arena[i]?

def fetch (l : Listing) (i : InstrId) : Except Fault Instr :=
  match l.instr? i with
  | some instr => return instr
  | none => throw .outOfRange

/-- The instructions in the order of the stream. -/
def instrs (l : Listing) : List Instr := l.stream.filterMap l.instr?

/-- The stamps run from 0 without gaps, so the last one tells how many blocks there are. -/
def blockCount (l : Listing) : Nat := l.instrs.getLast?.elim 0 (·.block + 1)

/-- The block that a placed label starts. -/
def labelBlock? (l : Listing) (label : LabelId) : Option BlockId := do
  let info ← l.labels.get? label
  let site ← info.site
  let instr ← l.instr? site
  return instr.block

/-! ### Operands -/

/-- The type of an operand, unless it refers to nothing. -/
def typeOf? (l : Listing) : Operand → Option Ty
  | .int _ => some .int
  | .float _ => some .float
  | .var v => (l.vars.get? v).map (·.ty)
  | .array a | .elem a _ => (l.arrays.get? a).map (·.element)
  | .instr i => (l.instr? i).map (·.ty)
  | .label _ => some .none

def typeOf (l : Listing) (operand : Operand) : Except Fault Ty :=
  match l.typeOf? operand with
  | some ty => return ty
  | none => throw .outOfRange

/-- The variable that holds the value of an operand. -/
def resolve (l : Listing) : Operand → Option VarId
  | .var v => some v
  | .instr i => (l.instr? i).bind (·.action.targetVar)
  | _ => none

/-- The variables that are read to get at an operand: those of the index for an element. -/
def operandUses (l : Listing) : Operand → List VarId
  | .elem _ index => l.operandUses index
  | operand => (l.resolve operand).toList

/-- The variables read to find the place of an element. -/
def targetUses (l : Listing) : Option Operand → List VarId
  | some (.elem _ index) => l.operandUses index
  | _ => []

/-- The variables that an action reads, in order and with repetitions. -/
def uses (l : Listing) (a : Action) : List VarId :=
  a.args.flatMap l.operandUses ++ l.targetUses a.target

/-! ### Growth -/

/-- The type of an instruction, from the types of its operands. Both operands of a binary
operation must have one type. -/
def actionTy (l : Listing) : Action → Except Fault Ty
  | .compute op lhs rhs _ => do
    let left ← l.typeOf lhs
    let right ← l.typeOf rhs
    if left = right then return op.resultTy left
    else throw (.operandTypesDiffer op.text left.text right.text)
  | .apply op operand _ => return op.resultTy (← l.typeOf operand)
  | .copy value _ => l.typeOf value
  | .param target => l.typeOf (.var target)
  | .call _ (some target) => l.typeOf (.var target)
  | _ => return .none

/-- Appends an instruction to the stream. -/
def emit (l : Listing) (action : Action) (block : BlockId) :
    Except Fault (Listing × InstrId) := do
  let ty ← l.actionTy action
  let id := l.arena.size
  return ({ l with arena := l.arena.push { id, action, ty, block }, stream := l.stream ++ [id] }, id)

/-- Inserts a copy of a variable into the stream at a position. -/
def spliceCopy (l : Listing) (position : Nat) (target source : VarId) (block : BlockId) :
    Listing :=
  let id := l.arena.size
  let ty := (l.typeOf? (.var source)).getD .none
  { l with
    arena := l.arena.push { id, action := .copy (.var source) (.var target), ty, block }
    stream := l.stream.insertIdx position id }

/-- Turns an instruction that assigns a variable into a copy of a value. -/
def replaceByCopy (l : Listing) (i : InstrId) (target : VarId) (value : Operand) : Listing :=
  { l with
    arena := l.arena.modify i fun instr => { instr with action := .copy value (.var target) } }

end Listing

end ThreeAddress
