import ThreeAddress.Fault
import ThreeAddress.Code.Operator
import ThreeAddress.Code.Scope

/-!
Variables, numbered in the order of their creation. A named variable may be renamed: the
new variable has name, scope, type and marks of the newest of its family and is one
generation younger. A family is known by its root, the variable that was declared.
-/

namespace ThreeAddress

abbrev VarId := Nat

/-- The text of a variable's number. -/
def varName (v : VarId) : String := s!"v{v}"

/-- Whether a variable is a parameter, and whether a pass has made it. -/
structure Marks where
  parameter : Bool
  synthetic : Bool
  deriving DecidableEq

namespace Marks

def none : Marks := ⟨false, false⟩

def ofParameter : Marks := ⟨true, false⟩

def ofPass : Marks := ⟨false, true⟩

def bits (m : Marks) : Nat := m.parameter.toNat + 2 * m.synthetic.toNat

def isEmpty (m : Marks) : Bool := !m.parameter && !m.synthetic

end Marks

inductive VarKind
  | named (name : String) (scope : Scope) (generation : Nat) (root : VarId)
  | temporary (serial : Nat)
  deriving DecidableEq

structure Variable where
  id : VarId
  kind : VarKind
  ty : Ty
  marks : Marks
  deriving DecidableEq

namespace Variable

def name? (v : Variable) : Option String :=
  match v.kind with
  | .named name _ _ _ => some name
  | .temporary _ => none

def scope? (v : Variable) : Option Scope :=
  match v.kind with
  | .named _ scope _ _ => some scope
  | .temporary _ => none

def root? (v : Variable) : Option VarId :=
  match v.kind with
  | .named _ _ _ root => some root
  | .temporary _ => none

def isTemporary (v : Variable) : Bool := v.root?.isNone

def text (v : Variable) : String :=
  match v.kind with
  | .named name scope generation _ => name ++ toString generation ++ ":" ++ scope.text
  | .temporary serial => "$t" ++ toString serial

end Variable

/-- All variables by number; `latest` holds the newest of each family that was renamed. -/
structure Variables where
  vars : Array Variable
  nextSerial : Nat
  latest : List (VarId × VarId)
  deriving DecidableEq

namespace Variables

def empty : Variables := ⟨#[], 0, []⟩

def size (s : Variables) : Nat := s.vars.size

def isEmpty (s : Variables) : Bool := s.vars.isEmpty

def get? (s : Variables) (v : VarId) : Option Variable := s.vars[v]?

def get (s : Variables) (v : VarId) : Except Fault Variable :=
  match s.get? v with
  | some x => return x
  | none => throw .outOfRange

/-- Appends a variable; its number is the old size. -/
def push (s : Variables) (kind : VarKind) (ty : Ty) (marks : Marks) : Variables :=
  { s with vars := s.vars.push ⟨s.size, kind, ty, marks⟩ }

def declare (s : Variables) (name : String) (ty : Ty) (scope : Scope) (marks : Marks) :
    Variables × VarId :=
  (s.push (.named name scope 0 s.size) ty marks, s.size)

/-- A new temporary with the next serial. Serials are natural numbers and never wrap; counters
of 32 bits give the same ones to the first `2 ^ 32` temporaries. -/
def temporary (s : Variables) (ty : Ty) (marks : Marks) : Variables × VarId :=
  ({ s.push (.temporary s.nextSerial) ty marks with nextSerial := s.nextSerial + 1 }, s.size)

/-- The newest variable of a family. -/
def newest (s : Variables) (root : VarId) : VarId := (s.latest.lookup root).getD root

/-- The newest variable of the family of `v`; `v` itself if it has none. -/
def current (s : Variables) (v : VarId) : VarId :=
  match (s.get? v).bind Variable.root? with
  | some root => s.newest root
  | none => v

/-- A new variable for the family of `v`. Temporaries have no family. Generations are natural
numbers and never wrap; counters of 32 bits give the same ones to the first `2 ^ 32` members of a
family. -/
def rename (s : Variables) (v : VarId) : Except Fault (Variables × VarId) := do
  let x ← s.get v
  match x.kind with
  | .temporary _ => throw (.temporaryRenamed x.text)
  | .named _ _ _ root =>
    let last ← s.get (s.newest root)
    match last.kind with
    | .temporary _ => throw (.temporaryRenamed last.text)
    | .named name scope generation _ =>
      let grown := s.push (.named name scope (generation + 1) root) last.ty last.marks
      return ({ grown with latest := (root, s.size) :: s.latest }, s.size)

/-- The text of a variable; the bare number if there is no such variable. -/
def textOf (s : Variables) (v : VarId) : String := (s.get? v).elim (varName v) Variable.text

end Variables

end ThreeAddress
