import ThreeAddress.Fault

/-!
Directed multigraphs with data at nodes and edges. Nodes and edges are numbered in the
order of their creation; an edge joins nodes that exist already.
-/

namespace ThreeAddress

structure Digraph.Edge (β : Type) where
  source : Nat
  target : Nat
  data : β
  deriving DecidableEq

structure Digraph (α β : Type) where
  nodes : Array α
  edges : Array (Digraph.Edge β)
  deriving DecidableEq

namespace Digraph

/-- The text of a node. -/
def nodeName (n : Nat) : String := s!"B{n}"

/-- The text of an edge. -/
def edgeName (e : Nat) : String := s!"e{e}"

inductive Endpoint
  | source
  | target
  deriving DecidableEq

def Endpoint.text : Endpoint → String
  | source => "source"
  | target => "target"

/-- An edge was refused because one of its ends does not exist. -/
structure MissingNode where
  endpoint : Endpoint
  node : Nat
  nodeCount : Nat
  deriving DecidableEq

def MissingNode.message (m : MissingNode) : String :=
  m.endpoint.text ++ " node " ++ nodeName m.node ++
    s!" does not exist in graph with {m.nodeCount} nodes"

variable {α β : Type}

def empty : Digraph α β := ⟨#[], #[]⟩

def nodeCount (g : Digraph α β) : Nat := g.nodes.size

def edgeCount (g : Digraph α β) : Nat := g.edges.size

def isEmpty (g : Digraph α β) : Bool := g.nodes.isEmpty

def addNode (g : Digraph α β) (data : α) : Digraph α β :=
  { g with nodes := g.nodes.push data }

/-- The edge from `source` to `target`; a missing source is reported before a missing
target. -/
def addEdge (g : Digraph α β) (source target : Nat) (data : β) :
    Except MissingNode (Digraph α β) :=
  if source ≥ g.nodeCount then throw ⟨.source, source, g.nodeCount⟩
  else if target ≥ g.nodeCount then throw ⟨.target, target, g.nodeCount⟩
  else return { g with edges := g.edges.push ⟨source, target, data⟩ }

/-- Adds edges with the same data from the left, up to the first that is refused. -/
def addEdges (g : Digraph α β) : List (Nat × Nat) → β → Digraph α β × Except MissingNode Unit
  | [], _ => (g, pure ())
  | (source, target) :: rest, data =>
    match g.addEdge source target data with
    | .ok g => addEdges g rest data
    | .error missing => (g, .error missing)

/-- The edges that leave a node, oldest first. -/
def outgoing (g : Digraph α β) (n : Nat) : List (Edge β) :=
  g.edges.toList.filter (·.source == n)

/-- The edges that enter a node, oldest first. -/
def incoming (g : Digraph α β) (n : Nat) : List (Edge β) :=
  g.edges.toList.filter (·.target == n)

/-- The target of each edge that leaves a node. -/
def succ (g : Digraph α β) (n : Nat) : List Nat := (g.outgoing n).map (·.target)

/-- The source of each edge that enters a node. -/
def pred (g : Digraph α β) (n : Nat) : List Nat := (g.incoming n).map (·.source)

/-- An answer about a node that must exist. -/
def atNode {γ : Type} (g : Digraph α β) (n : Nat) (answer : Nat → γ) : Except Fault γ :=
  if n < g.nodeCount then return answer n else throw .outOfRange

end Digraph

end ThreeAddress
