import ThreeAddress.Code.Listing
import ThreeAddress.Event

/-!
Passes and their schedule. All passes run in order, round after round, until a round in
which none reports a change or until the limit of rounds. A pass that fails ends the
schedule; what it and those before it have done stays.

A pass may keep a state from one run to the next. All passes of a schedule share one state
type, which a pass that needs none ignores.
-/

namespace ThreeAddress

/-- What one run of a pass leaves: its state, the listing, the events it records, and
whether it reports a change, unless it fails. -/
structure Pass.Outcome (σ : Type) where
  state : σ
  listing : Listing
  events : Log
  result : Except Failure Bool

structure Pass (σ : Type) where
  name : String
  description : String := "No description available"
  run : σ → Listing → Pass.Outcome σ

/-- The state, the listing and the log as a schedule goes on. -/
structure Progress (σ : Type) where
  state : σ
  listing : Listing
  log : Log

namespace Schedule

variable {σ : Type}

/-- The round limit where none is given. -/
def standardLimit : Nat := 10

/-- Runs one pass between its two events; a pass that fails is not completed. -/
def runPass (pass : Pass σ) (p : Progress σ) : Progress σ × Except Failure Bool :=
  let outcome := pass.run p.state p.listing
  let log := p.log ++ (.byPass (.ofKind .passStarted) pass.name :: outcome.events)
  match outcome.result with
  | .error failure => (⟨outcome.state, outcome.listing, log⟩, .error failure)
  | .ok changed =>
    let completed := (Event.ofKind .passCompleted).byPass pass.name
    let completed := completed.saying (if changed then "changed" else "unchanged")
    (⟨outcome.state, outcome.listing, log ++ [completed]⟩, .ok changed)

/-- Runs the passes in order; `changed` tells of a change so far. -/
def runRound : List (Pass σ) → (changed : Bool) → Progress σ → Progress σ × Except Failure Bool
  | [], changed, p => (p, .ok changed)
  | pass :: rest, changed, p =>
    match runPass pass p with
    | (p, .error failure) => (p, .error failure)
    | (p, .ok here) => runRound rest (changed || here) p

/-- At most `limit` more rounds after `done` of them; the number of rounds in all. -/
def runRounds (passes : List (Pass σ)) :
    (limit done : Nat) → Progress σ → Progress σ × Except Failure Nat
  | 0, done, p => (p, .ok done)
  | limit + 1, done, p =>
    match runRound passes false p with
    | (p, .error failure) => (p, .error failure)
    | (p, .ok false) => (p, .ok (done + 1))
    | (p, .ok true) => runRounds passes limit (done + 1) p

/-- Without passes there are no rounds. -/
def run (passes : List (Pass σ)) (limit : Nat) (p : Progress σ) :
    Progress σ × Except Failure Nat :=
  if passes.isEmpty then (p, .ok 0) else runRounds passes limit 0 p

end Schedule

end ThreeAddress
