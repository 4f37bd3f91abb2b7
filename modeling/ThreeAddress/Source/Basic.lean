import ThreeAddress.Binary32
import ThreeAddress.Code.Operator

/-!
The source language: expressions with assignment and calls, structured statements, and
programs made of one statement or of function prototypes and definitions.
-/

namespace ThreeAddress.Source

/-- Types as they are written in declarations. -/
inductive DeclTy
  | int
  | float
  | void
  deriving DecidableEq

namespace DeclTy

def text : DeclTy → String
  | int => "int"
  | float => "float"
  | void => "void"

/-- The type of the values that are declared. -/
def ty : DeclTy → Ty
  | int => .int
  | float => .float
  | void => .none

end DeclTy

inductive Expr
  | int (value : Int32)
  | float (value : Binary32)
  | var (name : String)
  | elem (array : String) (index : Expr)
  | binary (op : BinaryOp) (lhs rhs : Expr)
  | assign (lhs rhs : Expr)
  | unary (op : UnaryOp) (operand : Expr)
  | paren (inner : Expr)
  | call (function : String) (args : List Expr)

namespace Expr

/-- The expression inside all outer parentheses. -/
def stripParens : Expr → Expr
  | paren inner => inner.stripParens
  | e => e

end Expr

inductive Stmt
  | expr (e : Expr)
  | compound (body : List Stmt)
  | ifThen (test : Expr) (body : Stmt)
  | ifElse (test : Expr) (onTrue onFalse : Stmt)
  | while (test : Expr) (body : Stmt)
  | decl (ty : DeclTy) (name : String) (init : Option Expr)
  | array (ty : DeclTy) (name : String) (length : Nat)
  | ret (value : Option Expr)

structure Param where
  ty : DeclTy
  name : String
  deriving DecidableEq

structure Prototype where
  name : String
  returns : DeclTy
  params : List Param
  deriving DecidableEq

inductive Item
  | prototype (p : Prototype)
  | function (p : Prototype) (body : Stmt)

inductive Program
  | stmt (s : Stmt)
  | items (items : List Item)

end ThreeAddress.Source
