import ThreeAddress.Code.Instr

/-!
The tables that operands refer to besides the variables: arrays and labels, numbered in the
order of their creation, and functions, known by name.
-/

namespace ThreeAddress

structure ArrayDecl where
  name : String
  element : Ty
  length : Nat
  scope : Scope
  deriving DecidableEq

def ArrayDecl.text (a : ArrayDecl) : String := a.name ++ ":" ++ a.scope.text

structure Arrays where
  arrays : Array ArrayDecl
  deriving DecidableEq

namespace Arrays

def empty : Arrays := ⟨#[]⟩

def size (t : Arrays) : Nat := t.arrays.size

def isEmpty (t : Arrays) : Bool := t.arrays.isEmpty

def get? (t : Arrays) (a : ArrayId) : Option ArrayDecl := t.arrays[a]?

def get (t : Arrays) (a : ArrayId) : Except Fault ArrayDecl :=
  match t.get? a with
  | some decl => return decl
  | none => throw .outOfRange

def declare (t : Arrays) (decl : ArrayDecl) : Arrays × ArrayId :=
  (⟨t.arrays.push decl⟩, t.size)

/-- The text of an array; the bare number if there is no such array. -/
def textOf (t : Arrays) (a : ArrayId) : String := (t.get? a).elim s!"a{a}" ArrayDecl.text

end Arrays

inductive LabelName
  | synthetic (serial : Nat)
  | function (name : String)
  deriving DecidableEq

/-- A label and the instruction that places it, its `site`. -/
structure Label where
  name : LabelName
  site : Option InstrId
  deriving DecidableEq

namespace Label

def text (l : Label) : String :=
  match l.name with
  | .synthetic serial => "L" ++ toString serial
  | .function name => name

def isFunction (l : Label) : Bool :=
  match l.name with
  | .synthetic _ => false
  | .function _ => true

end Label

structure Labels where
  labels : Array Label
  nextSynthetic : Nat
  deriving DecidableEq

namespace Labels

def empty : Labels := ⟨#[], 0⟩

def size (t : Labels) : Nat := t.labels.size

def isEmpty (t : Labels) : Bool := t.labels.isEmpty

def get? (t : Labels) (l : LabelId) : Option Label := t.labels[l]?

def get (t : Labels) (l : LabelId) : Except Fault Label :=
  match t.get? l with
  | some label => return label
  | none => throw .outOfRange

def push (t : Labels) (name : LabelName) : Labels :=
  { t with labels := t.labels.push ⟨name, none⟩ }

/-- A fresh label of the code generator. Serials are natural numbers and never wrap; counters of
32 bits give the same ones to the first `2 ^ 32` such labels. -/
def synthetic (t : Labels) : Labels × LabelId :=
  ({ t.push (.synthetic t.nextSynthetic) with nextSynthetic := t.nextSynthetic + 1 }, t.size)

/-- The entry label of a function. -/
def function (t : Labels) (name : String) : Labels × LabelId :=
  (t.push (.function name), t.size)

/-- Records the instruction that places a label. -/
def place (t : Labels) (l : LabelId) (site : InstrId) : Except Fault Labels :=
  if l < t.size then
    return { t with labels := t.labels.modify l fun label => { label with site := some site } }
  else throw .outOfRange

/-- The text of a label; the bare number if there is no such label. -/
def textOf (t : Labels) (l : LabelId) : String := (t.get? l).elim s!"l{l}" Label.text

end Labels

structure Signature where
  returns : Ty
  params : List Ty
  label : LabelId
  defined : Bool
  deriving DecidableEq

/-- The functions by name, oldest first. -/
structure Functions where
  entries : List (String × Signature)
  deriving DecidableEq

namespace Functions

def empty : Functions := ⟨[]⟩

def size (t : Functions) : Nat := t.entries.length

def isEmpty (t : Functions) : Bool := t.entries.isEmpty

def get? (t : Functions) (name : String) : Option Signature := t.entries.lookup name

/-- Gives a name its signature anew. -/
def update (t : Functions) (name : String) (signature : Signature) : Functions :=
  ⟨t.entries.map fun entry => if entry.1 == name then (name, signature) else entry⟩

/-- Declares a function, or defines it. A function may be declared often with one
signature and defined once; a new one gets a label. -/
def declare (t : Functions) (labels : Labels) (name : String) (returns : Ty)
    (params : List Ty) (define : Bool) :
    Except Diagnostic (Functions × Labels × Signature) :=
  match t.get? name with
  | some old =>
    if old.returns ≠ returns ∨ old.params ≠ params ∨ (define ∧ old.defined) then
      throw (.duplicateDeclaration name .outermost)
    else
      let signature := { old with defined := old.defined || define }
      return (t.update name signature, labels, signature)
  | none =>
    let (labels, label) := labels.function name
    let signature : Signature := { returns, params, label, defined := define }
    return (⟨t.entries ++ [(name, signature)]⟩, labels, signature)

end Functions

end ThreeAddress
