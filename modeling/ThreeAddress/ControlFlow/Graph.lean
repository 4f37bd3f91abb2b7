import ThreeAddress.DataFlow.Available
import ThreeAddress.DataFlow.Liveness
import ThreeAddress.Digraph.Dominators
import ThreeAddress.Digraph.Traversal
import ThreeAddress.ControlFlow.Edge

/-!
Control-flow graphs. The last instruction of a block decides where control goes: a jump to
the block of its label, a conditional jump to the next block or to that of its label, a
return nowhere, and any other instruction to the next block. Control enters at block 0 and
at the label of each function.
-/

namespace ThreeAddress

namespace ControlFlow

/-- Which strategy the analyses use, and whether liveness is computed by both. -/
structure AnalysisSettings where
  strategy : DataFlow.Strategy
  verify : Bool
  deriving DecidableEq

def AnalysisSettings.standard : AnalysisSettings := ⟨.standard, false⟩

/-- The block of the label that a branch goes to. -/
def branchBlock (l : Listing) (instr : Instr) (label : LabelId) : Except Diagnostic BlockId :=
  match l.labelBlock? label with
  | some b => return b
  | none =>
    throw (.graph (.unplacedLabel (l.showAction instr.action) (l.labels.textOf label)))

/-- Where control goes after the last instruction of block `b` of `count` blocks. -/
def exitsOf (l : Listing) (count b : Nat) (last : Instr) :
    Except Diagnostic (List (BlockId × EdgeKind)) := do
  let next (kind : EdgeKind) := if b + 1 < count then [(b + 1, kind)] else []
  match last.action with
  | .jump label => return [(← branchBlock l last label, .jump)]
  | .jumpFalse _ label => return next .onTrue ++ [(← branchBlock l last label, .onFalse)]
  | .ret _ => return []
  | _ => return next .fallthrough

end ControlFlow

open ControlFlow DataFlow

structure FlowGraph where
  listing : Listing
  blocks : Array Block
  graph : Digraph Unit EdgeKind
  entries : List BlockId
  settings : AnalysisSettings

namespace FlowGraph

/-- Adds the edges that leave a block. -/
def addExits (l : Listing) (count : Nat) (g : Digraph Unit EdgeKind) (block : Block) :
    Except Diagnostic (Digraph Unit EdgeKind) :=
  match block.last?.bind l.instr? with
  | none => return g
  | some last => do
    let exits ← exitsOf l count block.id last
    exits.foldlM (fun g (target, kind) =>
      (g.addEdge block.id target kind).mapError fun m => .graph (.missingNode m)) g

/-- Block 0 and the blocks of all function labels. -/
def entriesOf (l : Listing) : List BlockId :=
  Ascending.ofList (0 :: l.functions.entries.filterMap fun (_, signature) =>
    l.labelBlock? signature.label)

/-- The control-flow graph of a listing that has instructions. -/
def ofListing (l : Listing) (settings : AnalysisSettings) : Except Diagnostic FlowGraph := do
  let blocks := l.blocks
  if blocks.isEmpty then throw .emptyUnit
  let count := blocks.length
  let nodes : Digraph Unit EdgeKind := ⟨Array.replicate count (), #[]⟩
  let graph ← blocks.foldlM (addExits l count) nodes
  return { listing := l, blocks := blocks.toArray, graph, entries := entriesOf l, settings }

def blockCount (g : FlowGraph) : Nat := g.blocks.size

def edgeCount (g : FlowGraph) : Nat := g.graph.edgeCount

def entry (_ : FlowGraph) : BlockId := 0

/-- The blocks that control can go to next, ascending. -/
def succ (g : FlowGraph) (b : BlockId) : List BlockId := Ascending.ofList (g.graph.succ b)

/-- The blocks that control can come from, ascending. -/
def pred (g : FlowGraph) (b : BlockId) : List BlockId := Ascending.ofList (g.graph.pred b)

/-- The blocks without a successor. -/
def exits (g : FlowGraph) : List BlockId :=
  (g.blocks.toList.map (·.id)).filter fun b => (g.succ b).isEmpty

/-- The edges that leave a block, in the order of their creation. -/
def outgoing (g : FlowGraph) (b : BlockId) : List Edge :=
  (g.graph.outgoing b).map fun e => ⟨e.source, e.target, e.data⟩

/-- All edges, by source. -/
def edges (g : FlowGraph) : List Edge := g.blocks.toList.flatMap fun block => g.outgoing block.id

def postorder (g : FlowGraph) : List BlockId := g.graph.postorder g.entry

def reversePostorder (g : FlowGraph) : List BlockId := g.graph.reversePostorder g.entry

/-- The blocks that some entry leads to. -/
def reachable (g : FlowGraph) : BitSet :=
  g.entries.foldl (fun s b => s.union (g.graph.reachable b)) (.empty g.blockCount)

/-- Dominators with respect to all entries. -/
def dominators (g : FlowGraph) : DomForest := g.graph.dominators g.entries

/-- Dominators with respect to block 0 alone. -/
def dominatorsFromEntry (g : FlowGraph) : DomForest :=
  DomForest.ofRoots g.blockCount g.succ g.pred [g.entry]

/-- The graph as the data-flow solver sees it. -/
def view (g : FlowGraph) : View :=
  { size := g.blockCount
    entry := g.entry
    succ := ((List.range g.blockCount).map g.succ).toArray
    pred := ((List.range g.blockCount).map g.pred).toArray }

def livenessBy (g : FlowGraph) (strategy : Strategy) : Except Fault Liveness :=
  Liveness.compute g.listing.vars.size g.blocks g.view strategy

/-- Liveness as the settings ask for it. -/
def liveness (g : FlowGraph) : Except Fault Liveness :=
  if g.settings.verify then Liveness.verify g.listing.vars.size g.blocks g.view
  else g.livenessBy g.settings.strategy

def availableBy (g : FlowGraph) (strategy : Strategy) : Except Fault Available :=
  Available.compute g.listing g.blocks g.view strategy

def available (g : FlowGraph) : Except Fault Available := g.availableBy g.settings.strategy

end FlowGraph

end ThreeAddress
