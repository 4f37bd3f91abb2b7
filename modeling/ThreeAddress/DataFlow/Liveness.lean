import ThreeAddress.Code.Block
import ThreeAddress.DataFlow.Fixpoint

/-!
Live variables: those that some path reads before it assigns them. The set after a block
is the union over its successors; a block takes out what it assigns and adds what it reads
first. Inside a block the set is found by walking back from its end.
-/

namespace ThreeAddress.DataFlow

/-- The live variables before and after each block. -/
structure Liveness where
  liveIn : Array BitSet
  liveOut : Array BitSet
  deriving DecidableEq

/-- Liveness over `varCount` variables as a backward problem. -/
def liveVariables (varCount : Nat) (blocks : Array Block) : Problem BitSet where
  direction := .backward
  boundary := .empty varCount
  initial := .empty varCount
  meet := .union
  transfer b live :=
    match blocks[b]? with
    | some block => (live.inter block.notKilled).union block.exposed
    | none => live
  height := varCount

namespace Liveness

def ofSolution (s : Solution BitSet) : Liveness := ⟨s.incoming, s.outgoing⟩

def compute (varCount : Nat) (blocks : Array Block) (v : View) (strategy : Strategy) :
    Except Fault Liveness :=
  return ofSolution (← (liveVariables varCount blocks).solve v strategy)

def setAt (sets : Array BitSet) (b : BlockId) : Except Fault BitSet :=
  match sets[b]? with
  | some live => return live
  | none => throw .outOfRange

def blockSets (l : Liveness) (b : BlockId) : Except Fault BlockSets :=
  return ⟨(← setAt l.liveIn b).toList, (← setAt l.liveOut b).toList⟩

/-- The result of the worklist, after the full pass has confirmed it. -/
def verify (varCount : Nat) (blocks : Array Block) (v : View) : Except Fault Liveness := do
  let worklist ← compute varCount blocks v .worklist
  let fullPass ← compute varCount blocks v .fullPass
  let differs (b : BlockId) : Bool :=
    worklist.liveIn[b]? != fullPass.liveIn[b]? || worklist.liveOut[b]? != fullPass.liveOut[b]?
  match (List.range worklist.liveIn.size).find? differs with
  | some b => throw (.strategiesDisagree b (← worklist.blockSets b) (← fullPass.blockSets b))
  | none => return worklist

/-! ### Points inside a block -/

/-- The variables live before an instruction, from those live after it: what it reads is
live, and then what it assigns is not. -/
def stepBack (l : Listing) (i : InstrId) (live : BitSet) : Except Fault BitSet := do
  let instr ← l.fetch i
  let (live, inserted) := live.insertAll? (l.uses instr.action)
  inserted
  match instr.action.targetVar with
  | some v => return (← live.erase? v).1
  | none => return live

/-- The block that an instruction is stamped with, and its position there. -/
def locate (l : Listing) (blocks : Array Block) (i : InstrId) :
    Except Fault (Block × Nat) := do
  let instr ← l.fetch i
  match blocks[instr.block]?.bind fun block => (block.position? i).map (block, ·) with
  | some found => return found
  | none => throw (.notInRecordedBlock i instr.block)

/-- The variables live before an instruction, by the walk back from the end of its block. -/
def liveAt (live : Liveness) (l : Listing) (blocks : Array Block) (i : InstrId) :
    Except Fault BitSet := do
  let (block, position) ← locate l blocks i
  (block.instrs.drop position).foldrM (stepBack l) (← setAt live.liveOut block.id)

/-- The variables live after an instruction. -/
def liveAfter (live : Liveness) (l : Listing) (blocks : Array Block) (i : InstrId) :
    Except Fault BitSet := do
  let (block, position) ← locate l blocks i
  match block.instrs[position + 1]? with
  | some next => live.liveAt l blocks next
  | none => setAt live.liveOut block.id

end Liveness

end ThreeAddress.DataFlow
