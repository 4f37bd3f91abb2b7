import ThreeAddress.Duration
import ThreeAddress.ControlFlow.Graph
import ThreeAddress.Lowering.Program
import ThreeAddress.Pass.ValueNumbering

/-!
The whole way from a program to optimised code, with its settings and its report.
-/

namespace ThreeAddress

structure Settings where
  optimize : Bool
  maxRounds : Nat
  numbering : ValueNumbering.Toggles
  analysis : ControlFlow.AnalysisSettings
  deriving DecidableEq

namespace Settings

def standard : Settings := ⟨true, Schedule.standardLimit, .standard, .standard⟩

def unoptimized : Settings := { standard with optimize := false }

/-- The passes that the settings ask for. -/
def passes {σ : Type} (s : Settings) : List (Pass σ) :=
  if s.optimize then [ValueNumbering.pass s.numbering] else []

end Settings

/-- What happened during a compilation, in how many rounds and how long it took. -/
structure Report where
  events : Log
  rounds : Nat
  elapsed : Duration

def Report.text (r : Report) : String :=
  r.events.summary ++ s!" in {r.rounds} round(s), " ++ r.elapsed.text

/-- The code of a program after all passes, the events and the number of rounds. -/
structure Compiled where
  listing : Listing
  events : Log
  rounds : Nat

/-- Lowers a program and runs the passes of the settings. -/
def compile (settings : Settings) (program : Source.Program) : Except Failure Compiled := do
  let listing ← Listing.ofProgram program
  let (progress, result) :=
    Schedule.run settings.passes settings.maxRounds (⟨(), listing, []⟩ : Progress Unit)
  return ⟨progress.listing, progress.log, ← result⟩

/-- The control-flow graph of compiled code. -/
def analyze (settings : Settings) (l : Listing) : Except Diagnostic FlowGraph :=
  FlowGraph.ofListing l settings.analysis

end ThreeAddress
