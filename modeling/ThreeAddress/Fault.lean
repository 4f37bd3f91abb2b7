/-!
Broken preconditions. A query with an identifier that names nothing, or with sets over
different domains, has no answer; the cause is a `Fault`, and `Fault.message` gives its
text. A plain look-up outside a table has no text.
-/

namespace ThreeAddress

/-- The items between braces, divided by commas. -/
def braced (items : List String) : String :=
  "\x7b" ++ ", ".intercalate items ++ "\x7d"

/-- The incoming and outgoing set of one block, as a solver found them. -/
structure BlockSets where
  incoming : List Nat
  outgoing : List Nat
  deriving DecidableEq

inductive Fault
  | outOfRange
  | bitOutsideDomain (index domain : Nat)
  | domainsDiffer
  | temporaryRenamed (name : String)
  | noDominator (node : Nat)
  | noDominatorSet (node : Nat)
  | notInRecordedBlock (instr block : Nat)
  | operandTypesDiffer (operator lhs rhs : String)
  | strategiesDisagree (block : Nat) (worklist fullPass : BlockSets)
  | heightExceeded (height : Nat)
  deriving DecidableEq

namespace Fault

def variableSet (vars : List Nat) : String :=
  braced (vars.map fun v => s!"VarId({v})")

def message : Fault → Option String
  | outOfRange => none
  | bitOutsideDomain index domain =>
    some s!"index {index} out of bounds for bit set of size {domain}"
  | domainsDiffer => some "bit sets must share a domain"
  | temporaryRenamed name => some s!"cannot rename temporary {name}"
  | noDominator node => some s!"B{node} is unreachable from every root and has no dominator"
  | noDominatorSet node =>
    some s!"B{node} is unreachable from every root and has no dominator set"
  | notInRecordedBlock instr block =>
    some s!"instruction #{instr} is not in its recorded block B{block}"
  | operandTypesDiffer operator lhs rhs =>
    some s!"binary `{operator}` instruction built from {lhs} and {rhs} operands"
  | strategiesDisagree block worklist fullPass =>
    some (s!"liveness strategies disagree at block B{block}: worklist in=" ++
      variableSet worklist.incoming ++ " out=" ++ variableSet worklist.outgoing ++
      ", full pass in=" ++ variableSet fullPass.incoming ++ " out=" ++
      variableSet fullPass.outgoing)
  | heightExceeded height => some s!"states descend more than {height} times"

end Fault

end ThreeAddress
