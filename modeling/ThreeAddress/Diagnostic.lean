import ThreeAddress.Fault
import ThreeAddress.Code.Operator
import ThreeAddress.Code.Scope
import ThreeAddress.Digraph.Basic

/-!
Why a program is refused. `Diagnostic.message` words each cause. A computation that may
also break a precondition ends in a `Failure`.
-/

namespace ThreeAddress

/-- Why a graph cannot be built, or what a pass reports of one. -/
inductive GraphCause
  | missingNode (m : Digraph.MissingNode)
  | unplacedLabel (branch label : String)
  | reported (text : String)
  deriving DecidableEq

def GraphCause.message : GraphCause → String
  | missingNode m => m.message
  | unplacedLabel branch label =>
    "branch " ++ branch ++ " targets label " ++ label ++ " which is never placed"
  | reported text => text

/-- Where two types were expected to agree. -/
inductive TypeContext
  | declaration (name : String)
  | initializer (name : String)
  | condition
  | returnFrom (function : String)
  | arrayAsValue (name : String)
  | operands (op : BinaryOp)
  | operand (op : UnaryOp)
  | index (array : String)
  | assignment (place : String)
  | argument (position : Nat) (function : String)
  deriving DecidableEq

def TypeContext.text : TypeContext → String
  | declaration name => s!"declaration of `{name}`"
  | initializer name => s!"initializer of `{name}`"
  | condition => "condition"
  | returnFrom function => s!"return from `{function}`"
  | arrayAsValue name => s!"use of array `{name}` as a value"
  | operands op => s!"operands of `{op.text}`"
  | operand op => s!"operand of `{op.text}`"
  | index array => s!"index of `{array}`"
  | assignment place => s!"assignment to `{place}`"
  | argument position function => s!"argument {position} of `{function}`"

inductive Diagnostic
  | undeclaredVariable (name : String) (scope : Scope)
  | undeclaredFunction (name : String)
  | typeMismatch (context : TypeContext) (expected found : Ty)
  | duplicateDeclaration (name : String) (scope : Scope)
  | arityMismatch (function : String) (expected found : Nat)
  | notAssignable (place : String)
  | emptyUnit
  | graph (cause : GraphCause)
  deriving DecidableEq

def Diagnostic.message : Diagnostic → String
  | undeclaredVariable name scope =>
    s!"Use of undeclared variable `{name}` in scope {scope.text}"
  | undeclaredFunction name => s!"Call to undeclared function `{name}`"
  | typeMismatch context expected found =>
    s!"Type mismatch in {context.text}: expected {expected.text}, found {found.text}"
  | duplicateDeclaration name scope =>
    s!"Duplicate declaration of `{name}` in scope {scope.text}"
  | arityMismatch function expected found =>
    s!"Function `{function}` expects {expected} argument(s), {found} given"
  | notAssignable place => s!"Expression is not assignable: {place}"
  | emptyUnit => "Compilation unit is empty"
  | graph cause => cause.message

inductive Failure
  | refused (d : Diagnostic)
  | fault (f : Fault)
  deriving DecidableEq

def Failure.message : Failure → Option String
  | refused d => some d.message
  | fault f => f.message

instance : MonadLift (Except Diagnostic) (Except Failure) where
  monadLift x := x.mapError .refused

instance : MonadLift (Except Fault) (Except Failure) where
  monadLift x := x.mapError .fault

end ThreeAddress
