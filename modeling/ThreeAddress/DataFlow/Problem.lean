import ThreeAddress.Fault

/-!
Data-flow problems. A problem gives each block a transfer function on states, and states
that arrive from several blocks meet. Forward states flow from the entry along the edges,
backward states from the exits against them.

The state that meets at a block is its *met* state, the one that the transfer makes of it
its *flown* state. Forward these are the incoming and the outgoing state, backward the
other way round.
-/

namespace ThreeAddress.DataFlow

inductive Direction
  | forward
  | backward
  deriving DecidableEq

inductive Strategy
  | worklist
  | fullPass
  deriving DecidableEq

namespace Strategy

def all : List Strategy := [worklist, fullPass]

def standard : Strategy := worklist

def text : Strategy → String
  | worklist => "worklist"
  | fullPass => "full-pass"

end Strategy

/-- The state `initial` meets everything without effect. No state can descend, by meets,
more than `height` times. -/
structure Problem (L : Type) where
  direction : Direction
  boundary : L
  initial : L
  meet : L → L → L
  transfer : Nat → L → L
  height : Nat

/-- The blocks `0` to `size - 1` with their neighbours in ascending order. The lists are
read only where the solver needs them. -/
structure View where
  size : Nat
  entry : Nat
  succ : Array (List Nat)
  pred : Array (List Nat)
  deriving DecidableEq

namespace View

/-- The view whose predecessor lists are the inverse of its successor lists. -/
def ofSuccessors (entry : Nat) (succ : Array (List Nat)) : View :=
  { size := succ.size
    entry
    succ
    pred := ((List.range succ.size).map fun b =>
      (List.range succ.size).filter fun a => (succ.getD a []).contains b).toArray }

def neighbours (table : Array (List Nat)) (b : Nat) : Except Fault (List Nat) :=
  match table[b]? with
  | some list => return list
  | none => throw .outOfRange

/-- The blocks whose flown states meet at a block. -/
def sources (v : View) : Direction → Nat → Except Fault (List Nat)
  | .forward => neighbours v.pred
  | .backward => neighbours v.succ

/-- The blocks where the flown state of a block is met. -/
def targets (v : View) : Direction → Nat → Except Fault (List Nat)
  | .forward => neighbours v.succ
  | .backward => neighbours v.pred

/-- Whether a block keeps the boundary state: the entry, for forward problems, and every
block at which nothing meets. -/
def isBoundary (v : View) (d : Direction) (b : Nat) : Except Fault Bool :=
  if d = .forward ∧ b = v.entry then return true
  else return (← v.sources d b).isEmpty

end View

end ThreeAddress.DataFlow
