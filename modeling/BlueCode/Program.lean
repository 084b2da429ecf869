import BlueCode.Operator

namespace BlueCode

inductive Literal where
  | int (n : Int64)
  | float (x : Float)
  | str (s : String)
  deriving DecidableEq, Repr

inductive Expr where
  | literal (value : Literal)
  | ident (name : String)
  | assign (target value : Expr)
  | arith (op : ArithOp) (left right : Expr)
  | compare (op : CompareOp) (left right : Expr)
  | call (function : String) (args : List Expr)
  deriving Repr, Inhabited

inductive Stmt where
  | declare (name : String) (value : Expr)
  | ret (value : Option Expr)
  | branch (condition : Expr) (onTrue : List Stmt) (onFalse : Option (List Stmt))
  | loop (condition : Expr) (body : List Stmt)
  | leave
  | effect (expr : Expr)
  deriving Repr, Inhabited

structure Function where
  name : String
  params : List String
  body : List Stmt
  deriving Repr, Inhabited

structure Program where
  functions : List Function
  deriving Repr, Inhabited

end BlueCode
