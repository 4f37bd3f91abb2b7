import ThreeAddress.Code.Variable
import ThreeAddress.Diagnostic

/-!
The names in scope: a stack of frames, the innermost first. Binding a name outside all
frames opens one. A name is looked up from the innermost frame outwards, and a variable
found there stands for the newest of its family.
-/

namespace ThreeAddress

abbrev ArrayId := Nat

inductive Symbol
  | var (v : VarId)
  | array (a : ArrayId)
  deriving DecidableEq

structure Frame where
  scope : Scope
  names : List (String × Symbol)
  deriving DecidableEq

/-- The open frames; `opened` counts those opened so far at depth 1, 2, and so on. -/
structure Scopes where
  frames : List Frame
  opened : List Nat
  deriving DecidableEq

namespace Scopes

def empty : Scopes := ⟨[], []⟩

def depth (s : Scopes) : Nat := s.frames.length

def current (s : Scopes) : Scope := s.frames.head?.elim .outermost Frame.scope

/-- The scope that the next frame gets. -/
def next (s : Scopes) : Scope := ⟨s.depth + 1, s.opened.getD s.depth 0⟩

/-- Counts a frame more at the depth after `depth` others. -/
def countAt : (depth : Nat) → List Nat → List Nat
  | 0, [] => [1]
  | 0, n :: rest => (n + 1) :: rest
  | depth + 1, [] => 0 :: countAt depth []
  | depth + 1, n :: rest => n :: countAt depth rest

def push (s : Scopes) : Scopes :=
  { frames := ⟨s.next, []⟩ :: s.frames
    opened := countAt s.depth s.opened }

def pop (s : Scopes) : Scopes := { s with frames := s.frames.tail }

def isBoundLocally (s : Scopes) (name : String) : Bool :=
  s.frames.head?.any fun frame => (frame.names.lookup name).isSome

/-- The stack itself, with a frame if it has none. -/
def withFrame (s : Scopes) : Scopes := if s.frames.isEmpty then s.push else s

/-- Binds a name in the innermost frame, unless it is taken there. -/
def bind (s : Scopes) (name : String) (symbol : Symbol) : Except Diagnostic Scopes :=
  match s.withFrame.frames with
  | [] => return s.withFrame
  | frame :: outer =>
    if (frame.names.lookup name).isSome then throw (.duplicateDeclaration name frame.scope)
    else return { s.withFrame with
      frames := { frame with names := (name, symbol) :: frame.names } :: outer }

/-- The stack that a binding leaves, made or refused, and the refusal. The frame that it may need is
opened before the name is looked at. -/
def attempt (s : Scopes) (name : String) (symbol : Symbol) : Scopes × Option Diagnostic :=
  match s.withFrame.bind name symbol with
  | .ok bound => (bound, none)
  | .error refusal => (s.withFrame, some refusal)

/-- The symbol bound to a name in the innermost frame that binds it. -/
def binding (s : Scopes) (name : String) : Option Symbol :=
  s.frames.findSome? fun frame => frame.names.lookup name

def lookup (s : Scopes) (vars : Variables) (name : String) : Option Symbol :=
  (s.binding name).map fun
    | .var v => .var (vars.current v)
    | .array a => .array a

end Scopes

end ThreeAddress
