import ThreeAddress.Ascending
import ThreeAddress.DataFlow.Problem

/-!
Two ways to solve a data-flow problem. The worklist recomputes the smallest pending block
and, when its flown state changes, makes the blocks that meet it pending. The full pass
transfers all blocks and then meets at all blocks, until no met state changes. Both start
from the initial state everywhere but at the boundary.
-/

namespace ThreeAddress.DataFlow

structure States (L : Type) where
  met : Array L
  flown : Array L

/-- The states before and after each block, and how often the solver went round. -/
structure Solution (L : Type) where
  incoming : Array L
  outgoing : Array L
  iterations : Nat
  deriving DecidableEq

section

variable {L : Type} [DecidableEq L]

def stateAt (states : Array L) (b : Nat) : Except Fault L :=
  match states[b]? with
  | some state => return state
  | none => throw .outOfRange

/-- Writes a state and tells whether it differs from the old one. -/
def store (states : Array L) (b : Nat) (state : L) : Except Fault (Array L × Bool) := do
  if (← stateAt states b) = state then return (states, false)
  else return (states.setIfInBounds b state, true)

namespace Problem

/-- The states at the start. -/
def initialStates (p : Problem L) (v : View) : Except Fault (States L) := do
  let met ← (List.range v.size).mapM fun b =>
    return if ← v.isBoundary p.direction b then p.boundary else p.initial
  return ⟨met.toArray, Array.replicate v.size p.initial⟩

/-- The meet of the flown states of some blocks; none for no blocks. -/
def meetOf (p : Problem L) (flown : Array L) : List Nat → Except Fault (Option L)
  | [] => return none
  | b :: rest => do
    let first ← stateAt flown b
    return some (← rest.foldlM (fun state c => return p.meet state (← stateAt flown c)) first)

/-- Recomputes the met state of a block off the boundary; tells whether it changed. -/
def meetAt (p : Problem L) (v : View) (s : States L) (b : Nat) :
    Except Fault (States L × Bool) := do
  if ← v.isBoundary p.direction b then return (s, false)
  match ← p.meetOf s.flown (← v.sources p.direction b) with
  | none => return (s, false)
  | some state =>
    let (met, changed) ← store s.met b state
    return ({ s with met }, changed)

/-- Recomputes the flown state of a block; tells whether it changed. -/
def transferAt (p : Problem L) (v : View) (s : States L) (b : Nat) :
    Except Fault (States L × Bool) := do
  if v.size ≤ b then throw .outOfRange
  let (flown, changed) ← store s.flown b (p.transfer b (← stateAt s.met b))
  return ({ s with flown }, changed)

/-- One turn of the worklist, at block `b`: the new states, and what becomes pending. -/
def turn (p : Problem L) (v : View) (s : States L) (b : Nat) :
    Except Fault (States L × List Nat) := do
  let (s, _) ← p.meetAt v s b
  let (s, changed) ← p.transferAt v s b
  if changed then return (s, ← v.targets p.direction b) else return (s, [])

/-- Turns until nothing is pending, at most `fuel` of them. -/
def drain (p : Problem L) (v : View) :
    (fuel turns : Nat) → States L → List Nat → Except Fault (States L × Nat)
  | _, turns, s, [] => return (s, turns)
  | 0, _, _, _ :: _ => throw (.heightExceeded p.height)
  | fuel + 1, turns, s, b :: pending => do
    let (s, affected) ← p.turn v s b
    drain p v fuel (turns + 1) s (Ascending.insertAll affected pending)

/-- Transfers all blocks, then meets at all blocks; tells whether a met state changed. -/
def sweep (p : Problem L) (v : View) (s : States L) : Except Fault (States L × Bool) := do
  let blocks := List.range v.size
  let s ← blocks.foldlM (fun s b => return (← p.transferAt v s b).1) s
  blocks.foldlM (fun (s, changed) b => do
    let (s, here) ← p.meetAt v s b
    return (s, changed || here)) (s, false)

/-- Sweeps until one changes no met state, at most `fuel` times. -/
def settle (p : Problem L) (v : View) :
    (fuel rounds : Nat) → States L → Except Fault (States L × Nat)
  | 0, _, _ => throw (.heightExceeded p.height)
  | fuel + 1, rounds, s => do
    let (s, changed) ← p.sweep v s
    if changed then settle p v fuel (rounds + 1) s else return (s, rounds + 1)

/-- Every block's flown state changes at most `height` times and makes at most all blocks
pending, besides those pending at first. A block that does not exist takes one turn, which
fails. -/
def turnBound (p : Problem L) (v : View) : Nat := v.size * (v.size * p.height + 1) + 1

/-- All sweeps but the last change one of the met states, each at most `height` times. -/
def roundBound (p : Problem L) (v : View) : Nat := v.size * p.height + 1

def iterate (p : Problem L) (v : View) (strategy : Strategy) (s : States L) :
    Except Fault (States L × Nat) :=
  match strategy with
  | .worklist => p.drain v (p.turnBound v) 0 s (List.range v.size)
  | .fullPass => p.settle v (p.roundBound v) 0 s

/-- Met and flown states as incoming and outgoing ones. -/
def solution (p : Problem L) (s : States L) (iterations : Nat) : Solution L :=
  match p.direction with
  | .forward => ⟨s.met, s.flown, iterations⟩
  | .backward => ⟨s.flown, s.met, iterations⟩

def solve (p : Problem L) (v : View) (strategy : Strategy) : Except Fault (Solution L) := do
  if v.size = 0 then return ⟨#[], #[], 0⟩
  let (s, iterations) ← p.iterate v strategy (← p.initialStates v)
  return p.solution s iterations

end Problem

end

end ThreeAddress.DataFlow
