namespace BlueCode

inductive ArithOp where
  | add
  | sub
  | mul
  | div
  deriving DecidableEq, Repr

inductive CompareOp where
  | eq
  | ne
  | lt
  | gt
  | le
  | ge
  deriving DecidableEq, Repr

def ArithOp.all : List ArithOp :=
  [.add, .sub, .mul, .div]

def CompareOp.all : List CompareOp :=
  [.eq, .ne, .lt, .gt, .le, .ge]

def ArithOp.verb : ArithOp → String
  | add => "add"
  | sub => "subtract"
  | mul => "multiply"
  | div => "divide"

end BlueCode
