import ThreeAddress.Proofs.Lowering.Structured

/-!
Which programs are valid, as the text alone tells it.

A name stands for what the innermost scope that binds it has declared before. Compound
statements, the parameters of a function and the program itself are scopes; a declaration in the
branch of a conditional or in the body of a loop belongs to the scope around it. Statements after
one that ends the path, in the same compound statement, are not looked at.
-/

namespace ThreeAddress.Source

/-- What a name is declared as. -/
inductive Binding
  | scalar (ty : Ty)
  | array (element : Ty)
  deriving DecidableEq

/-- The types of a function, and whether it is defined. -/
structure Interface where
  returns : Ty
  params : List Ty
  defined : Bool
  deriving DecidableEq

/-- What is declared at a point of the text: the names of the open scopes, the innermost first,
the functions, and inside a function the type of its result. -/
structure Declared where
  scopes : List (List (String × Binding))
  functions : String → Option Interface
  returns : Option Ty

namespace Declared

def start : Declared := ⟨[[]], fun _ => none, none⟩

def binding? (d : Declared) (name : String) : Option Binding :=
  d.scopes.findSome? (·.lookup name)

def scalar? (d : Declared) (name : String) : Option Ty :=
  (d.binding? name).bind fun
    | .scalar ty => some ty
    | .array _ => none

def array? (d : Declared) (name : String) : Option Ty :=
  (d.binding? name).bind fun
    | .scalar _ => none
    | .array element => some element

def enter (d : Declared) : Declared := { d with scopes := [] :: d.scopes }

/-- The innermost scope does not bind the name. -/
def isFree (d : Declared) (name : String) : Bool := ((d.scopes.headD []).lookup name).isNone

def bind (d : Declared) (name : String) (binding : Binding) : Declared :=
  { d with scopes := ((name, binding) :: d.scopes.headD []) :: d.scopes.tail }

/-- Declares a scalar or an array, whose type has values and whose name is free. -/
def declare (d : Declared) (binding : Ty → Binding) (ty : DeclTy) (name : String) :
    Option Declared :=
  if ty.ty.isValue ∧ d.isFree name then some (d.bind name (binding ty.ty)) else none

def declareParams (d : Declared) : List Param → Option Declared
  | [] => some d
  | p :: rest => (d.declare .scalar p.ty p.name).bind (·.declareParams rest)

def addFunction (d : Declared) (name : String) (f : Interface) : Declared :=
  { d with functions := fun other => if other = name then some f else d.functions other }

/-- Declares or defines a function: often, but always with the same types, and defined once. -/
def declareFunction (d : Declared) (p : Prototype) (define : Bool) : Option Declared :=
  let f : Interface := ⟨p.returns.ty, p.params.map (·.ty.ty), define⟩
  match d.functions p.name with
  | none => some (d.addFunction p.name f)
  | some old =>
    if old.returns = f.returns ∧ old.params = f.params ∧ ¬(define ∧ old.defined) then
      some (d.addFunction p.name { f with defined := old.defined || define })
    else none

/-- A return may have the type: inside a function it is that of the result. -/
def admits (d : Declared) (ty : Ty) : Bool := d.returns.all (· == ty)

end Declared

/-- A variable or an element, in any parentheses. -/
def Expr.isPlace : Expr → Bool
  | .paren inner => inner.isPlace
  | .var _ | .elem _ _ => true
  | _ => false

mutual

/-- The type of an expression, if it is valid. -/
def Expr.ty? (d : Declared) : Expr → Option Ty
  | .int _ => some .int
  | .float _ => some .float
  | .var name => d.scalar? name
  | .elem name index => if index.ty? d = some .int then d.array? name else none
  | .paren inner => inner.ty? d
  | .assign lhs rhs => if lhs.isPlace ∧ rhs.ty? d = lhs.ty? d then lhs.ty? d else none
  | .binary op lhs rhs =>
    if lhs.ty? d = rhs.ty? d then ((lhs.ty? d).filter Ty.isValue).map op.resultTy else none
  | .unary op operand => ((operand.ty? d).filter Ty.isValue).map op.resultTy
  | .call function args =>
    (d.functions function).bind fun f =>
      if Expr.fit d args f.params then some f.returns else none

/-- The arguments have the types of the parameters. -/
def Expr.fit (d : Declared) : List Expr → List Ty → Bool
  | [], [] => true
  | arg :: args, ty :: tys => arg.ty? d = some ty && Expr.fit d args tys
  | _, _ => false

end

/-- The type of an expression that has a value. -/
def Expr.valueTy? (d : Declared) (e : Expr) : Option Ty := (e.ty? d).filter Ty.isValue

mutual

/-- What is declared after a statement, if it is valid. -/
def Stmt.after? (d : Declared) : Stmt → Option Declared
  | .expr e => (e.ty? d).map fun _ => d
  | .compound body => (afterAll? d.enter body).map fun _ => d
  | .ifThen test body => (test.valueTy? d).bind fun _ => body.after? d
  | .ifElse test onTrue onFalse =>
    (test.valueTy? d).bind fun _ => (onTrue.after? d).bind fun d => onFalse.after? d
  | .while test body => (test.valueTy? d).bind fun _ => body.after? d
  | .decl ty name none => d.declare .scalar ty name
  | .decl ty name (some init) =>
    if init.ty? d = some ty.ty then d.declare .scalar ty name else none
  | .array ty name _ => d.declare .array ty name
  | .ret none => if d.admits .none then some d else none
  | .ret (some value) => (value.ty? d).bind fun ty => if d.admits ty then some d else none

def afterAll? (d : Declared) : List Stmt → Option Declared
  | [] => some d
  | s :: rest => (s.after? d).bind fun d => if s.ends then some d else afterAll? d rest

end

/-- What is declared after an item, if it is valid. A function may call itself. -/
def Item.after? (d : Declared) : Item → Option Declared
  | .prototype p => d.declareFunction p false
  | .function p body =>
    (d.declareFunction p true).bind fun d =>
      (d.enter.declareParams p.params).bind fun inner =>
        (body.after? { inner with returns := some p.returns.ty }).map fun _ => d

def Item.afterAll? (d : Declared) : List Item → Option Declared
  | [] => some d
  | i :: rest => (i.after? d).bind (Item.afterAll? · rest)

def Program.after? : Program → Option Declared
  | .stmt s => s.after? .start
  | .items all => Item.afterAll? .start all

/-- A program all of whose statements and items are valid. -/
def Program.Valid (p : Program) : Prop := p.after?.isSome = true

instance (p : Program) : Decidable p.Valid := inferInstanceAs (Decidable (_ = true))

end ThreeAddress.Source
