/-!
A forest of linked nodes with compressed paths. `eval` finds, on the way from a node up to
but not including the first unlinked one, a node of least rank. Each query shortens the
ways it has walked: a node then points near its root and remembers the best node that it
skips.
-/

namespace ThreeAddress

structure LinkForest where
  /-- The next node on the way up; none for a node that is not linked. -/
  ancestor : Array (Option Nat)
  /-- A node of least rank among the node itself and those skipped above it. -/
  best : Array Nat

namespace LinkForest

def ofSize (n : Nat) : LinkForest := ⟨Array.replicate n none, (List.range n).toArray⟩

def ancestorOf (f : LinkForest) (v : Nat) : Option Nat := f.ancestor.getD v none

def bestOf (f : LinkForest) (v : Nat) : Nat := f.best.getD v v

/-- Links `v` below `parent`. -/
def link (f : LinkForest) (v parent : Nat) : LinkForest :=
  { f with ancestor := f.ancestor.setIfInBounds v (some parent) }

/-- Lets `v` skip the node `a` above it, whose best node it takes over if that one has
the lower rank. -/
def skip (rank : Nat → Nat) (f : LinkForest) (v a : Nat) : LinkForest :=
  { ancestor := f.ancestor.setIfInBounds v (f.ancestorOf a)
    best :=
      if rank (f.bestOf a) < rank (f.bestOf v) then f.best.setIfInBounds v (f.bestOf a)
      else f.best }

/-- Shortens the way up from `v`, the upper part first. A way has at most `fuel` nodes. -/
def compress (rank : Nat → Nat) : (fuel : Nat) → LinkForest → Nat → LinkForest
  | 0, f, _ => f
  | fuel + 1, f, v =>
    match f.ancestorOf v with
    | none => f
    | some a =>
      match f.ancestorOf a with
      | none => f
      | some _ => (compress rank fuel f a).skip rank v a

/-- A node of least rank on the way up from `v`; `v` itself while it is not linked. -/
def eval (rank : Nat → Nat) (f : LinkForest) (v : Nat) : LinkForest × Nat :=
  match f.ancestorOf v with
  | none => (f, v)
  | some _ =>
    let f := f.compress rank f.ancestor.size v
    (f, f.bestOf v)

end LinkForest

end ThreeAddress
