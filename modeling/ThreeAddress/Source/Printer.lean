import ThreeAddress.Source.Basic

/-!
The text of expressions and statements. No parentheses are added, so the text shows
those of the source only.
-/

namespace ThreeAddress.Source

mutual

def Expr.text : Expr → String
  | .int value => toString value.toInt
  | .float value => value.text
  | .var name => name
  | .elem array index => array ++ "[" ++ index.text ++ "]"
  | .binary op lhs rhs => lhs.text ++ " " ++ op.text ++ " " ++ rhs.text
  | .assign lhs rhs => lhs.text ++ " = " ++ rhs.text
  | .unary op operand => op.text ++ operand.text
  | .paren inner => "(" ++ inner.text ++ ")"
  | .call function args => function ++ "(" ++ ", ".intercalate (Expr.texts args) ++ ")"

def Expr.texts : List Expr → List String
  | [] => []
  | e :: rest => e.text :: Expr.texts rest

end

mutual

def Stmt.text : Stmt → String
  | .expr e => e.text ++ ";"
  | .compound body => "\x7b" ++ Stmt.texts body ++ " \x7d"
  | .ifThen test body => "if (" ++ test.text ++ ") " ++ body.text
  | .ifElse test onTrue onFalse =>
    "if (" ++ test.text ++ ") " ++ onTrue.text ++ " else " ++ onFalse.text
  | .while test body => "while (" ++ test.text ++ ") " ++ body.text
  | .decl ty name none => ty.text ++ " " ++ name ++ ";"
  | .decl ty name (some init) => ty.text ++ " " ++ name ++ " = " ++ init.text ++ ";"
  | .array ty name length => ty.text ++ " " ++ name ++ "[" ++ toString length ++ "];"
  | .ret none => "return;"
  | .ret (some value) => "return " ++ value.text ++ ";"

/-- The statements of a body, a blank before each. -/
def Stmt.texts : List Stmt → String
  | [] => ""
  | s :: rest => " " ++ s.text ++ Stmt.texts rest

end

end ThreeAddress.Source
