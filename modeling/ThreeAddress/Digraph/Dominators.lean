import ThreeAddress.Ascending
import ThreeAddress.Digraph.Basic
import ThreeAddress.Digraph.LinkForest

/-!
Dominators of a graph with any number of roots: `a` dominates `b` if every path from a
root to `b` passes through `a`.

A virtual root with an edge to each root turns the forest into one tree. The nodes are
numbered depth first. Then, from the highest number down, each node gets its
semidominator: the least number from which it can be reached through higher numbers only.
A `LinkForest` over the nodes done so far answers what is least. The immediate dominator
is the semidominator or, when a node on the way has a smaller one, that of this node.
-/

namespace ThreeAddress

/-- The immediate dominator of each reachable node; a root stands below itself. -/
structure DomForest where
  entry : Nat
  idom : Array (Option Nat)
  deriving DecidableEq

namespace Dominators

/-- Numbers from 1 in the order of first visits; 0 for a node not reached. -/
structure Numbering where
  number : Array Nat
  order : Array Nat
  parent : Array Nat

def Numbering.reached (s : Numbering) (v : Nat) : Bool := s.number.getD v 0 != 0

def Numbering.add (s : Numbering) (node parent : Nat) : Numbering :=
  { number := s.number.setIfInBounds node (s.order.size + 1)
    order := s.order.push node
    parent := s.parent.setIfInBounds node parent }

/-- Numbers `node` and what it leads to. At most `fuel` nodes are open at a time. -/
def visit (succ : Nat → List Nat) :
    (fuel : Nat) → (parent : Nat) → Numbering → (node : Nat) → Numbering
  | 0, _, s, _ => s
  | fuel + 1, parent, s, node =>
    if s.number.size ≤ node ∨ s.reached node then s
    else (succ node).foldl (visit succ fuel node) (s.add node parent)

def number (size : Nat) (succ : Nat → List Nat) (root : Nat) : Numbering :=
  visit succ size root ⟨Array.replicate size 0, #[], Array.replicate size root⟩ root

/-- The state of the search for immediate dominators. `bucket` holds, for each node, the
nodes of which it is the semidominator and that still wait for their dominator. -/
structure Search where
  semi : Array Nat
  forest : LinkForest
  bucket : Array (List Nat)
  idom : Array Nat

namespace Search

def ofSize (size root : Nat) : Search :=
  ⟨(List.range size).toArray, LinkForest.ofSize size, Array.replicate size [], Array.replicate size root⟩

def semiOf (s : Search) (v : Nat) : Nat := s.semi.getD v v

def idomOf (s : Search) (v : Nat) : Nat := s.idom.getD v v

/-- The number of a node's semidominator. -/
def rank (dfs : Numbering) (s : Search) (v : Nat) : Nat := dfs.number.getD (s.semiOf v) 0

def eval (dfs : Numbering) (s : Search) (v : Nat) : Search × Nat :=
  let (forest, u) := s.forest.eval (s.rank dfs) v
  ({ s with forest }, u)

/-- Lowers the semidominator of `w` to what the predecessor `v` offers. -/
def relax (dfs : Numbering) (w : Nat) (s : Search) (v : Nat) : Search :=
  if dfs.reached v then
    let (s, u) := s.eval dfs v
    if s.rank dfs u < s.rank dfs w then { s with semi := s.semi.setIfInBounds w (s.semiOf u) }
    else s
  else s

/-- Puts `w` to wait at its semidominator. -/
def defer (s : Search) (w : Nat) : Search :=
  { s with bucket := s.bucket.modify (s.semiOf w) (· ++ [w]) }

/-- Settles `v`, which waits at `p`: `p` dominates it, or the node found below `p` has the
same dominator. -/
def settle (dfs : Numbering) (p : Nat) (s : Search) (v : Nat) : Search :=
  let (s, u) := s.eval dfs v
  { s with idom := s.idom.setIfInBounds v (if s.semiOf u = s.semiOf v then p else u) }

/-- Finds the semidominator of `w`, links `w`, and settles what waits at its parent. -/
def process (dfs : Numbering) (pred : Nat → List Nat) (s : Search) (w : Nat) : Search :=
  let p := dfs.parent.getD w w
  let s := ((pred w).foldl (relax dfs w) s).defer w
  let s := { s with forest := s.forest.link w p }
  let waiting := s.bucket.getD p []
  waiting.foldl (settle dfs p) { s with bucket := s.bucket.setIfInBounds p [] }

/-- Replaces the node found below the semidominator by that node's dominator. -/
def finish (s : Search) (w : Nat) : Search :=
  if s.idomOf w = s.semiOf w then s
  else { s with idom := s.idom.setIfInBounds w (s.idomOf (s.idomOf w)) }

end Search

/-- The search over all nodes but the root, from the highest number down. -/
def search (size : Nat) (dfs : Numbering) (pred : Nat → List Nat) (root : Nat) : Search :=
  let below := dfs.order.toList.drop 1
  let s := below.reverse.foldl (Search.process dfs pred) (Search.ofSize size root)
  below.foldl Search.finish s

/-- The roots that exist, each once. -/
def rootsWithin (size : Nat) (roots : List Nat) : List Nat :=
  (roots.filter (· < size)).eraseDups

end Dominators

namespace DomForest

open Dominators in
/-- The dominators of the nodes below `size` with respect to `roots`. The node `size` is
the virtual root. -/
def ofRoots (size : Nat) (succ pred : Nat → List Nat) (roots : List Nat) : DomForest :=
  let starts := rootsWithin size roots
  let succs (v : Nat) := if v = size then starts else succ v
  let preds (v : Nat) := if starts.contains v then pred v ++ [size] else pred v
  let dfs := number (size + 1) succs size
  let found := search (size + 1) dfs preds size
  let idom (v : Nat) : Option Nat :=
    if dfs.reached v then some (if found.idomOf v = size then v else found.idomOf v) else none
  { entry := roots.headD 0
    idom := ((List.range size).map idom).toArray }

/-- The immediate dominator as recorded: the node itself for a root. -/
def idom? (t : DomForest) (n : Nat) : Option Nat := t.idom.getD n none

def nodeCount (t : DomForest) : Nat := t.idom.size

def isReachable (t : DomForest) (n : Nat) : Bool := (t.idom? n).isSome

def isRoot (t : DomForest) (n : Nat) : Bool := t.idom? n == some n

def roots (t : DomForest) : List Nat := (List.range t.nodeCount).filter t.isRoot

/-- The dominator next above a node; none for roots and unreachable nodes. -/
def immediate? (t : DomForest) (n : Nat) : Option Nat := (t.idom? n).filter (· != n)

/-- At most `fuel` nodes of the way up from `n`. -/
def climb (t : DomForest) : (fuel : Nat) → Nat → List Nat
  | 0, _ => []
  | fuel + 1, n =>
    n :: match t.immediate? n with
      | some d => climb t fuel d
      | none => []

/-- The node, its immediate dominator, and so on up to a root. -/
def chain (t : DomForest) (n : Nat) : List Nat := t.climb (t.nodeCount + 1) n

def dominates (t : DomForest) (a b : Nat) : Bool := t.isReachable b && (t.chain b).contains a

def strictlyDominates (t : DomForest) (a b : Nat) : Bool := a != b && t.dominates a b

def idomOf (t : DomForest) (n : Nat) : Except Fault Nat :=
  match t.idom? n with
  | some d => return d
  | none => throw (.noDominator n)

/-- The dominators of a reachable node, ascending. -/
def dominatorsOf (t : DomForest) (n : Nat) : Except Fault (List Nat) :=
  if t.isReachable n then return Ascending.ofList (t.chain n) else throw (.noDominatorSet n)

/-- How many nodes strictly dominate a reachable node. -/
def depth (t : DomForest) (n : Nat) : Except Fault Nat :=
  return (← t.dominatorsOf n).length - 1

def children (t : DomForest) (n : Nat) : List Nat :=
  (List.range t.nodeCount).filter fun c => t.idom? c == some n && c != n

end DomForest

namespace Digraph

variable {α β : Type}

/-- The dominators with respect to any number of roots; roots that do not exist count for
nothing. -/
def dominators (g : Digraph α β) (roots : List Nat) : DomForest :=
  DomForest.ofRoots g.nodeCount g.succ g.pred roots

def dominatorsFrom (g : Digraph α β) (root : Nat) : DomForest := g.dominators [root]

end Digraph

end ThreeAddress
