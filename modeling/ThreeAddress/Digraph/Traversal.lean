import ThreeAddress.BitSet
import ThreeAddress.Digraph.Basic

/-!
Depth-first order and reachability. Successors are visited in the order of their edges. A
node is finished when all it leads to has been visited, and the postorder lists the nodes
as they are finished.
-/

namespace ThreeAddress

namespace Traversal

/-- The nodes entered so far, and those finished, oldest first. -/
structure Walk where
  entered : BitSet
  finished : Array Nat

/-- What is still to be done with a node. -/
inductive Task
  | enter (node : Nat)
  | finish (node : Nat)

/-- Does a task. Entering a node leads to further tasks, the first of them to be done next: to
enter those successors that are new at this time, and then to finish the node. -/
def Walk.perform (succ : Nat → List Nat) (w : Walk) : Task → Walk × List Task
  | .enter node =>
    if w.entered.domain ≤ node ∨ w.entered.contains node then (w, [])
    else
      let entered := w.entered.insert node
      let new := (succ node).filter fun next => !entered.contains next
      ({ w with entered }, new.map .enter ++ [.finish node])
  | .finish node => ({ w with finished := w.finished.push node }, [])

/-- Does all tasks, at most `fuel` of them. -/
def search (succ : Nat → List Nat) : (fuel : Nat) → Walk → List Task → Walk
  | 0, w, _ => w
  | _ + 1, w, [] => w
  | fuel + 1, w, task :: tasks =>
    let (w, first) := w.perform succ task
    search succ fuel w (first ++ tasks)

/-- The nodes that `start` leads to, among nodes below `size`, in the order in which they
are finished. Each node is finished once, and each edge is a reason to enter its target. -/
def postorder (size : Nat) (succ : Nat → List Nat) (start : Nat) : List Nat :=
  let fuel := size + ((List.range size).flatMap succ).length + 1
  (search succ fuel ⟨BitSet.empty size, #[]⟩ [.enter start]).finished.toList

def reversePostorder (size : Nat) (succ : Nat → List Nat) (start : Nat) : List Nat :=
  (postorder size succ start).reverse

/-- Adds a node to the set and to the nodes still to be expanded, unless it is known. -/
def discover (state : BitSet × List Nat) (node : Nat) : BitSet × List Nat :=
  if state.1.contains node then state else (state.1.insert node, node :: state.2)

/-- Expands the nodes of `pending`, at most `fuel` of them. -/
def spread (succ : Nat → List Nat) : (fuel : Nat) → BitSet → List Nat → BitSet
  | 0, seen, _ => seen
  | _ + 1, seen, [] => seen
  | fuel + 1, seen, node :: pending =>
    let (seen, pending) := (succ node).foldl discover (seen, pending)
    spread succ fuel seen pending

/-- The set of nodes that `start` leads to. Each node is expanded once. -/
def reachable (size : Nat) (succ : Nat → List Nat) (start : Nat) : BitSet :=
  if start < size then spread succ size ((BitSet.empty size).insert start) [start]
  else BitSet.empty size

end Traversal

namespace Digraph

variable {α β : Type}

def postorder (g : Digraph α β) (start : Nat) : List Nat :=
  Traversal.postorder g.nodeCount g.succ start

def reversePostorder (g : Digraph α β) (start : Nat) : List Nat :=
  Traversal.reversePostorder g.nodeCount g.succ start

def reachable (g : Digraph α β) (start : Nat) : BitSet :=
  Traversal.reachable g.nodeCount g.succ start

end Digraph

end ThreeAddress
