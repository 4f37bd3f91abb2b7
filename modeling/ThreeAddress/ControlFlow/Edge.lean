import ThreeAddress.Code.Instr

/-!
The edges of a control-flow graph and why control takes them.
-/

namespace ThreeAddress.ControlFlow

inductive EdgeKind
  | fallthrough
  | jump
  | onTrue
  | onFalse
  deriving DecidableEq

namespace EdgeKind

def text : EdgeKind → String
  | fallthrough => "fallthrough"
  | jump => "jump"
  | onTrue => "true"
  | onFalse => "false"

def isConditional : EdgeKind → Bool
  | onTrue | onFalse => true
  | _ => false

def isBranch : EdgeKind → Bool
  | fallthrough => false
  | _ => true

end EdgeKind

structure Edge where
  source : BlockId
  target : BlockId
  kind : EdgeKind
  deriving DecidableEq

def Edge.text (e : Edge) : String :=
  blockName e.source ++ " -> " ++ blockName e.target ++ " (" ++ e.kind.text ++ ")"

end ThreeAddress.ControlFlow
