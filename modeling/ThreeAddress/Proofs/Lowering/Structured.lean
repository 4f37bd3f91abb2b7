import ThreeAddress.Lowering.State
import ThreeAddress.Proofs.Machine

/-!
Structured execution of source programs.

A name stands for the innermost declaration that is visible where the name is written, so
the text alone decides what it means; `Context` follows the text. Variables and arrays are
known by their number among all declarations, of which those that no path reaches are left
out. A declaration has one variable, which keeps its value until it is assigned.

An expression denotes a value, a variable or an element, and what it denotes is read by the
operation that uses it. Loops are cut off after a number of turns; a run that takes more
is known by all its beginnings.
-/

namespace ThreeAddress

namespace Source

/-- What names stand for at a point of the text, and the number of the variables and of the
arrays declared before it. -/
structure Context where
  names : List (String × Symbol)
  vars : Nat
  arrays : Nat

namespace Context

def start : Context := ⟨[], 0, 0⟩

def declareVar (c : Context) (name : String) : Context :=
  { c with names := (name, .var c.vars) :: c.names, vars := c.vars + 1 }

def declareArray (c : Context) (name : String) : Context :=
  { c with names := (name, .array c.arrays) :: c.names, arrays := c.arrays + 1 }

def declareParams (c : Context) (params : List Param) : Context :=
  params.foldl (fun c p => c.declareVar p.name) c

end Context

mutual

/-- Whether control never reaches what follows a statement, as far as the text tells. -/
def Stmt.ends : Stmt → Bool
  | .ret _ => true
  | .compound body => endsAny body
  | .ifElse _ onTrue onFalse => onTrue.ends && onFalse.ends
  | _ => false

def endsAny : List Stmt → Bool
  | [] => false
  | s :: rest => s.ends || endsAny rest

end

mutual

/-- The context after a statement. Declarations in the branches of a statement stay visible,
those in a compound statement do not. -/
def Stmt.context (c : Context) : Stmt → Context
  | .decl _ name _ => c.declareVar name
  | .array _ name _ => c.declareArray name
  | .compound body => { contextAfter c body with names := c.names }
  | .ifThen _ body => body.context c
  | .ifElse _ onTrue onFalse => onFalse.context (onTrue.context c)
  | .while _ body => body.context c
  | _ => c

def contextAfter (c : Context) : List Stmt → Context
  | [] => c
  | s :: rest => if s.ends then s.context c else contextAfter (s.context c) rest

end

/-- The context after an item; names declared in a function are visible nowhere else. -/
def Item.context (c : Context) : Item → Context
  | .prototype _ => c
  | .function p body => { body.context (c.declareParams p.params) with names := c.names }

def Item.signature : Item → Prototype
  | .prototype p => p
  | .function p _ => p

/-- A function definition with the context that it stands in. -/
structure Definition where
  context : Context
  signature : Prototype
  body : Stmt

/-- The definition of a function. -/
def findDefinition (name : String) (c : Context) : List Item → Option Definition
  | [] => none
  | .prototype _ :: rest => findDefinition name c rest
  | .function p body :: rest =>
    if p.name = name then some ⟨c, p, body⟩
    else findDefinition name (Item.context c (.function p body)) rest

/-- The type that calls of a function have. -/
def Program.returns : Program → String → Ty
  | .stmt _, _ => .none
  | .items all, name =>
    ((all.map Item.signature).find? (·.name = name)).elim .none (·.returns.ty)

end Source

namespace Structured

open Source Machine

variable {W : Type}

structure Store (W : Type) where
  vars : Nat → Value
  arrays : ArrayStore
  world : W
  trace : List Observation

namespace Store

def set (m : Store W) (x : Nat) (v : Value) : Store W :=
  { m with vars := Function.update m.vars x v }

def store (m : Store W) (a : ArrayId) (i : Int32) (v : Value) : Store W :=
  { m with arrays := Function.update m.arrays a (Function.update (m.arrays a) i v) }

def record (m : Store W) (o : Observation) : Store W := { m with trace := m.trace ++ [o] }

end Store

/-- Why a run ends before the end of the text. -/
inductive Stop
  | returned
  | trapped
  | exhausted
  deriving DecidableEq

abbrev Exec (W : Type) := ExceptT Stop (StateM (Store W))

/-- How a run ends, and what it leaves behind. -/
def result {α : Type} (x : Exec W α) (m : Store W) : Except Stop α × Store W := x.run.run m

/-- A value, or a variable that is read later. -/
inductive Scalar
  | value (v : Value)
  | var (x : Nat)

/-- What an expression denotes. -/
inductive Denoted
  | scalar (s : Scalar)
  | elem (a : ArrayId) (index : Scalar)

def Scalar.read (m : Store W) : Scalar → Value
  | value v => v
  | var x => m.vars x

/-- The value of what an expression denotes. The index of an element is read with it. -/
def Denoted.read (m : Store W) : Denoted → Value
  | scalar s => s.read m
  | elem a index => m.arrays a (index.read m).index

def value (v : Value) : Denoted := .scalar (.value v)

def update (f : Store W → Store W) : Exec W Unit := modify f

def halt {α : Type} (o : Observation) (stop : Stop) : Exec W α := do
  update (·.record o)
  throw stop

/-- Forms an element. An index that is an element itself is read now. -/
def element (c : Context) (name : String) (index : Denoted) : Exec W Denoted := do
  let m ← get
  let position : Scalar := match index with
    | .scalar s => s
    | .elem a i => .value ((Denoted.elem a i).read m)
  match c.names.lookup name with
  | some (.array a) => return .elem a position
  | _ => return value .void

def scalarNamed (c : Context) (name : String) : Denoted :=
  match c.names.lookup name with
  | some (.var x) => .scalar (.var x)
  | _ => value .void

/-- Reads a value and puts it where the target is. -/
def assign (target source : Denoted) : Exec W Unit := do
  let v := source.read (← get)
  match target with
  | .scalar (.var x) => update (·.set x v)
  | .elem a index =>
    let i := (index.read (← get)).index
    update fun m => (m.store a i v).record (.store a i v)
  | .scalar (.value _) => pure ()

def binary (op : BinaryOp) (lhs rhs : Denoted) : Exec W Denoted := do
  let m ← get
  match Value.binary op (lhs.read m) (rhs.read m) with
  | some v => return value v
  | none => halt .trap .trapped

def unary (op : UnaryOp) (operand : Denoted) : Exec W Denoted := do
  return value (.unary op (operand.read (← get)))

/-- Reads the arguments and calls. Only a function that returns values yields one. -/
def call (env : Environment W) (function : String) (returns : Ty) (args : List Denoted) :
    Exec W Denoted := do
  let m ← get
  let values := args.map (·.read m)
  let answer := env.call m.world function values m.arrays
  update fun m =>
    { m with world := answer.1, arrays := answer.2.2 }.record (.call function values)
  return value (if returns.isValue then answer.2.1 else .void)

mutual

/-- Evaluates an expression to what it denotes. -/
def eval (env : Environment W) (returns : String → Ty) (c : Context) :
    Expr → Exec W Denoted
  | .int n => return value (.int n)
  | .float x => return value (.float x)
  | .var name => return scalarNamed c name
  | .elem name inner => do
    element c name (← eval env returns c inner)
  | .paren inner => eval env returns c inner
  | .assign lhs rhs => do
    let source ← eval env returns c rhs
    let target ← place env returns c lhs
    assign target source
    return target
  | .binary op lhs rhs => do
    let left ← eval env returns c lhs
    let right ← eval env returns c rhs
    binary op left right
  | .unary op operand => do
    unary op (← eval env returns c operand)
  | .call function args => do
    call env function (returns function) (← evalAll env returns c args)

/-- Evaluates the target of an assignment. -/
def place (env : Environment W) (returns : String → Ty) (c : Context) :
    Expr → Exec W Denoted
  | .paren inner => place env returns c inner
  | .var name => return scalarNamed c name
  | .elem name inner => do
    element c name (← eval env returns c inner)
  | _ => return value .void

def evalAll (env : Environment W) (returns : String → Ty) (c : Context) :
    List Expr → Exec W (List Denoted)
  | [] => return []
  | e :: rest => do
    let d ← eval env returns c e
    return d :: (← evalAll env returns c rest)

end

/-- Whether the test of a branch holds. -/
def holds (env : Environment W) (returns : String → Ty) (c : Context) (test : Expr) :
    Exec W Bool := do
  let d ← eval env returns c test
  return !(d.read (← get)).isZero

/-- Runs a loop, `fuel` turns at most. -/
def loop (test : Exec W Bool) (body : Exec W Unit) : (fuel : Nat) → Exec W Unit
  | 0 => throw .exhausted
  | fuel + 1 => do
    if ← test then
      body
      loop test body fuel

mutual

def exec (env : Environment W) (returns : String → Ty) (fuel : Nat) (c : Context) :
    Stmt → Exec W Unit
  | .expr e => do
    let _ ← eval env returns c e
  | .compound body => execAll env returns fuel c body
  | .ifThen test body => do
    if ← holds env returns c test then exec env returns fuel c body
  | .ifElse test onTrue onFalse => do
    if ← holds env returns c test then exec env returns fuel c onTrue
    else exec env returns fuel (onTrue.context c) onFalse
  | .while test body => loop (holds env returns c test) (exec env returns fuel c body) fuel
  | .decl _ _ none => pure ()
  | .decl _ _ (some init) => do
    assign (.scalar (.var c.vars)) (← eval env returns c init)
  | .array _ _ _ => pure ()
  | .ret none => halt (.ret none) .returned
  | .ret (some e) => do
    let d ← eval env returns c e
    halt (.ret (some (d.read (← get)))) .returned

def execAll (env : Environment W) (returns : String → Ty) (fuel : Nat) (c : Context) :
    List Stmt → Exec W Unit
  | [] => pure ()
  | s :: rest => do
    exec env returns fuel c s
    execAll env returns fuel (s.context c) rest

end

/-- Gives the parameters, whose variables start at `x`, the arguments; a parameter without
argument is left without a value. -/
def Store.passArgs (m : Store W) (x : Nat) : (params : List Param) → List Value → Store W
  | [], _ => m
  | _ :: params, args => (m.set x (args.headD .void)).passArgs (x + 1) params args.tail

/-- Runs a function; control that reaches the end of its body returns. -/
def invoke (env : Environment W) (returns : String → Ty) (fuel : Nat) (f : Definition)
    (args : List Value) : Exec W Unit := do
  update (·.passArgs f.context.vars f.signature.params args)
  exec env returns fuel (f.context.declareParams f.signature.params) f.body
  halt (.ret none) .returned

end Structured

namespace Source.Program

open Structured Machine

variable {W : Type}

/-- The parts of a program that can be run, the statement or a function by name, with loops
cut off after a number of turns. -/
def code (env : Environment W) (p : Program) (args : List Value) :
    Entry → Option (Nat → Exec W Unit)
  | .first =>
    match p with
    | .stmt s => some fun fuel => do
      exec env p.returns fuel .start s
      update (·.record .finished)
    | .items _ => none
  | .function name =>
    match p with
    | .stmt _ => none
    | .items all =>
      (findDefinition name .start all).map fun f fuel => invoke env p.returns fuel f args

end Source.Program

end ThreeAddress
