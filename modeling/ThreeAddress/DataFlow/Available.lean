import ThreeAddress.Code.Block
import ThreeAddress.Code.Formula
import ThreeAddress.DataFlow.Fixpoint

/-!
Available formulas: those that every path to a block computes, with none of their variables
assigned afterwards. The formulas of a listing are numbered in the order of their first
computation.
-/

namespace ThreeAddress

abbrev FormulaId := Nat

/-- The text of a formula's number. -/
def formulaName (e : FormulaId) : String := s!"E{e}"

namespace DataFlow

/-- For each block the formulas that it makes available, and those of which it assigns a
variable. -/
structure AvailableProblem where
  formulas : List Formula
  gen : Array BitSet
  kill : Array BitSet
  deriving DecidableEq

namespace AvailableProblem

/-- The formulas of a listing, each once, in the order of the stream. -/
def formulasOf (l : Listing) : List Formula :=
  (l.instrs.filterMap fun instr => Formula.ofAction l instr.action).eraseDups

/-- The numbers of the formulas that read a variable. -/
def readers (formulas : List Formula) (v : VarId) : List FormulaId :=
  (formulas.zipIdx.filter fun (f, _) => f.reads v).map Prod.snd

/-- What is computed and what is lost up to some point of a block. -/
structure Effect where
  gen : BitSet
  kill : BitSet

/-- An instruction computes its formula before it assigns its target. -/
def Effect.step (l : Listing) (formulas : List Formula) (s : Effect) (instr : Instr) : Effect :=
  let gen := ((Formula.ofAction l instr.action).bind formulas.idxOf?).elim s.gen s.gen.insert
  let lost := instr.action.targetVar.elim [] (readers formulas)
  { gen := gen.eraseAll lost
    kill := s.kill.insertAll lost }

def effectOf (l : Listing) (formulas : List Formula) (block : Block) : Effect :=
  (block.instrs.filterMap l.instr?).foldl (Effect.step l formulas)
    ⟨.empty formulas.length, .empty formulas.length⟩

def ofListing (l : Listing) (blocks : Array Block) : AvailableProblem :=
  let formulas := formulasOf l
  let effects := blocks.toList.map (effectOf l formulas)
  { formulas
    gen := (effects.map (·.gen)).toArray
    kill := (effects.map (·.kill)).toArray }

/-- Availability as a forward problem: states meet in their intersection. -/
def problem (a : AvailableProblem) : Problem BitSet where
  direction := .forward
  boundary := .empty a.formulas.length
  initial := .full a.formulas.length
  meet := .inter
  transfer b available :=
    match a.gen[b]?, a.kill[b]? with
    | some gen, some kill => (available.diff kill).union gen
    | _, _ => available
  height := a.formulas.length

end AvailableProblem

/-- The formulas available before and after each block. -/
structure Available where
  formulas : List Formula
  availIn : Array BitSet
  availOut : Array BitSet
  deriving DecidableEq

namespace Available

def compute (l : Listing) (blocks : Array Block) (v : View) (strategy : Strategy) :
    Except Fault Available := do
  let a := AvailableProblem.ofListing l blocks
  let s ← a.problem.solve v strategy
  return ⟨a.formulas, s.incoming, s.outgoing⟩

def formula? (a : Available) (e : FormulaId) : Option Formula := a.formulas[e]?

def lookup (a : Available) (f : Formula) : Option FormulaId := a.formulas.idxOf? f

def isAvailableIn (a : Available) (b : BlockId) (f : Formula) : Bool :=
  (a.lookup f).any fun e => (a.availIn[b]?).any (·.contains e)

def setText (s : BitSet) : String := braced (s.toList.map formulaName)

/-- A line for each formula, then a line for each block. -/
def text (a : Available) (l : Listing) : String :=
  let heads := a.formulas.zipIdx.map fun (f, e) => formulaName e ++ ": " ++ f.render l ++ "\n"
  let sets := (a.availIn.toList.zip a.availOut.toList).zipIdx.map fun ((before, after), b) =>
    blockName b ++ ": in " ++ setText before ++ " out " ++ setText after ++ "\n"
  String.join (heads ++ sets)

end Available

end DataFlow

end ThreeAddress
