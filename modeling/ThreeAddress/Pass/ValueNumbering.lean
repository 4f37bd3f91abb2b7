import ThreeAddress.Code.Block
import ThreeAddress.Pass.Fold
import ThreeAddress.Pass.Schedule

/-!
Local value numbering. Each block is scanned once with a table that tells, for each formula
computed so far, where its value is. A computation whose value is known becomes a copy, and
one on two literals becomes a copy of the literal it yields.

A value is held by the variable it was computed into. When that variable is assigned anew
the value is detached; if it is needed later, a copy of the variable into a new temporary
is inserted right after the computation.
-/

namespace ThreeAddress

namespace ValueNumbering

structure Toggles where
  fold : Bool
  eliminate : Bool
  deriving DecidableEq

def Toggles.standard : Toggles := ⟨true, true⟩

def Toggles.disabled : Toggles := ⟨false, false⟩

def passName : String := "local-value-numbering"

def passDescription : String :=
  "Eliminates redundant computations within blocks and folds literal operations"

/-- Where the value of a formula is. `origin` is the position in the block of the
computation that put it into `v`. -/
inductive Holding
  | literal (value : Atom)
  | live (v : VarId) (origin : Nat)
  | detached (v : VarId) (origin : Nat)
  | materialized (v : VarId) (origin : Nat) (temp : VarId)
  deriving DecidableEq

/-- Another value has been put into `v`. -/
def Holding.detach (v : VarId) : Holding → Holding
  | live w origin => if w = v then detached w origin else live w origin
  | h => h

/-- Where the value of each known formula is; a formula occurs at most once. -/
abbrev Table := List (Formula × Holding)

namespace Table

def insert (t : Table) (f : Formula) (h : Holding) : Table :=
  (f, h) :: List.filter (·.1 != f) t

/-- Forgets the formulas that read `v`. -/
def forget (t : Table) (v : VarId) : Table := List.filter (!·.1.reads v) t

/-- Detaches the values that `v` holds. -/
def detach (t : Table) (v : VarId) : Table := List.map (fun (f, h) => (f, h.detach v)) t

end Table

/-- A copy of `source` into `temp`, to be inserted after the computation at `origin`. -/
structure CopyOrder where
  origin : Nat
  temp : VarId
  source : VarId
  deriving DecidableEq

/-- Adds an order behind those with no later origin. -/
def CopyOrder.enqueue (order : CopyOrder) : List CopyOrder → List CopyOrder
  | [] => [order]
  | first :: rest =>
    if first.origin ≤ order.origin then first :: order.enqueue rest else order :: first :: rest

/-- The state of the scan of a block. The pending orders stand by ascending origin. `changed`
is set once an instruction of the block has been rewritten. -/
structure Scan where
  listing : Listing
  table : Table
  pending : List CopyOrder
  events : Log
  changed : Bool

namespace Scan

/-- Before the first instruction of a block nothing is known and nothing has changed. -/
def start (l : Listing) (events : Log) : Scan := ⟨l, [], [], events, false⟩

def record (s : Scan) (kind : Event.Kind) (b : BlockId) (i : InstrId) (message : String) : Scan :=
  { s with
    events := s.events ++ [(((Event.ofKind kind).byPass passName).atInstr b i).saying message] }

/-- Puts the detached value of `f`, computed at `origin` by instruction `i`, into a new
temporary. -/
def materialize (s : Scan) (b : BlockId) (f : Formula) (v : VarId) (origin : Nat) (i : InstrId) :
    Scan × VarId :=
  let ty := (s.listing.typeOf? (.var v)).getD .none
  let (vars, temp) := s.listing.vars.temporary ty .ofPass
  let order : CopyOrder := ⟨origin, temp, v⟩
  let s := { s with
    listing := { s.listing with vars }
    table := s.table.insert f (.materialized v origin temp)
    pending := order.enqueue s.pending }
  (s.record .copyMaterialized b i (vars.textOf temp ++ " = " ++ vars.textOf v), temp)

/-- The operand that gives the value of `f`. -/
def reuse (s : Scan) (block : Block) (f : Formula) : Holding → Scan × Operand
  | .literal value => (s, value.operand)
  | .live v _ => (s, .var v)
  | .materialized _ _ temp => (s, .var temp)
  | .detached v origin =>
    let (s, temp) := s.materialize block.id f v origin (block.instrs.getD origin 0)
    (s, .var temp)

/-- Replaces a computation of `f` by a copy of its value. -/
def replace (s : Scan) (kind : Event.Kind) (b : BlockId) (i : InstrId) (target : VarId)
    (f : Formula) (how : String) (value : Operand) : Scan :=
  let s := s.record kind b i (f.render s.listing ++ how ++ s.listing.showOperand value)
  { s with listing := s.listing.replaceByCopy i target value, changed := true }

/-- A new value for `target`: formulas that read it are forgotten, and unless it keeps its
value, those it holds are detached. -/
def assign (s : Scan) (target : VarId) (keeps : Bool) : Scan :=
  let table := s.table.forget target
  { s with table := if keeps then table else table.detach target }

def remember (s : Scan) (f : Formula) (h : Holding) : Scan :=
  { s with table := s.table.insert f h }

/-- A computation of `f` into `target` at `position`, by instruction `i`. -/
def compute (t : Toggles) (block : Block) (s : Scan) (position : Nat) (i : InstrId)
    (target : VarId) (f : Formula) : Scan :=
  match if t.eliminate then s.table.lookup f else none with
  | some holding =>
    let (s, value) := s.reuse block f holding
    let s := s.replace .expressionEliminated block.id i target f " replaced by " value
    s.assign target (value = .var target)
  | none =>
    match if t.fold then f.fold? else none with
    | some literal =>
      let s := s.replace .constantFolded block.id i target f " folded to " literal.operand
      (s.assign target false).remember f (.literal literal)
    | none =>
      let s := s.assign target false
      if f.reads target then s else s.remember f (.live target position)

def step (t : Toggles) (block : Block) (s : Scan) (entry : InstrId × Nat) : Scan :=
  let (i, position) := entry
  match s.listing.instr? i with
  | none => s
  | some instr =>
    match instr.action.targetVar, Formula.ofAction s.listing instr.action with
    | some target, some f => s.compute t block position i target f
    | some target, none => s.assign target false
    | none, _ => s

end Scan

/-- Inserts the pending copies of a block that starts at position `start` of the stream.
Each goes right after its origin, past the copies inserted before it. -/
def insertCopies (l : Listing) (b : BlockId) (start : Nat) (pending : List CopyOrder) : Listing :=
  pending.zipIdx.foldl (fun l (order, inserted) =>
    l.spliceCopy (start + order.origin + 1 + inserted) order.temp order.source b) l

/-- Scans a block and inserts the copies that it needs. The flag tells whether an instruction
of this block has been rewritten. -/
def scanBlock (t : Toggles) (state : Listing × Log) (block : Block) : Listing × Log × Bool :=
  let (l, events) := state
  let scan := block.instrs.zipIdx.foldl (Scan.step t block) (.start l events)
  match block.first?.bind scan.listing.stream.idxOf? with
  | some start =>
    (insertCopies scan.listing block.id start scan.pending, scan.events, scan.changed)
  | none => (scan.listing, scan.events, scan.changed)

/-- Scans the next block of a run, which has `changed` the code before or not. -/
def scanNext (t : Toggles) (state : Listing × Log × Bool) (block : Block) :
    Listing × Log × Bool :=
  let (l, events, changed) := state
  let (l, events, blockChanged) := scanBlock t (l, events) block
  (l, events, changed || blockChanged)

/-- Scans all blocks. The copies of a block go into the block itself, so the listing is divided
into blocks once. -/
def run (t : Toggles) (l : Listing) : Listing × Log × Bool :=
  l.blocks.foldl (scanNext t) (l, [], false)

def pass {σ : Type} (t : Toggles) : Pass σ where
  name := passName
  description := passDescription
  run state l :=
    let (l, events, changed) := run t l
    { state, listing := l, events, result := .ok changed }

end ValueNumbering

end ThreeAddress
