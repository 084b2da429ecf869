import BlueCode.Decimal.Layout
import BlueCode.Decimal.Reading
import BlueCode.Operator

namespace BlueCode

inductive Value where
  | null
  | int (n : Int64)
  | float (x : Float)
  | str (s : String)
  deriving DecidableEq, Repr, Inhabited

inductive Kind where
  | null
  | int
  | float
  | str
  deriving DecidableEq, Repr

def Kind.name : Kind → String
  | .null => "null"
  | .int => "int"
  | .float => "float"
  | .str => "string"

inductive ValueError where
  | notInteger (found : Kind)
  | notNumber (found : Kind)
  | cannotCompute (op : ArithOp) (left right : Kind)
  | cannotOrder (left right : Kind)
  | unordered
  | divisionByZero
  deriving DecidableEq, Repr

def widen (n : Int64) : Float :=
  if n < 0 then -(-n).toUInt64.toFloat else n.toUInt64.toFloat

/-- The integer part; numbers out of range go to the nearest integer there is, and a not-a-number
to zero. -/
def truncate (x : Float) : Int64 :=
  if x < 0 then
    let magnitude := (-x).toUInt64
    if magnitude < 0x8000000000000000 then -magnitude.toInt64 else Int64.minValue
  else
    let magnitude := x.toUInt64
    if magnitude < 0x8000000000000000 then magnitude.toInt64 else Int64.maxValue

namespace Value

def kind : Value → Kind
  | null => .null
  | int _ => .int
  | float _ => .float
  | str _ => .str

def display : Value → String
  | null => ""
  | int n => String.ofList (Decimal.intChars n.toInt)
  | float x => Decimal.Layout.printed.text x
  | str s => s

def ofBool (b : Bool) : Value :=
  int (if b then 1 else 0)

def asInt : Value → Except ValueError Int64
  | int n => .ok n
  | float x => .ok (truncate x)
  | other => .error (.notInteger other.kind)

def asFloat : Value → Except ValueError Float
  | int n => .ok (widen n)
  | float x => .ok x
  | other => .error (.notNumber other.kind)

/-- Null adopts the other side; a string on either side makes the sum a concatenation. -/
def add : Value → Value → Value
  | null, b => b
  | a, null => a
  | str a, b => str (a ++ b.display)
  | a, str b => str (a.display ++ b)
  | int a, int b => int (a + b)
  | int a, float b => float (widen a + b)
  | float a, int b => float (a + widen b)
  | float a, float b => float (a + b)

/-- Numbers are combined as integers when both are, else as doubles. -/
def combine (op : ArithOp) (onInts : Int64 → Int64 → Int64) (onFloats : Float → Float → Float) :
    Value → Value → Except ValueError Value
  | int a, int b => .ok (int (onInts a b))
  | int a, float b => .ok (float (onFloats (widen a) b))
  | float a, int b => .ok (float (onFloats a (widen b)))
  | float a, float b => .ok (float (onFloats a b))
  | a, b => .error (.cannotCompute op a.kind b.kind)

def sub : Value → Value → Except ValueError Value :=
  combine .sub (· - ·) (· - ·)

def mul : Value → Value → Except ValueError Value :=
  combine .mul (· * ·) (· * ·)

def isZero : Value → Bool
  | int n => n == 0
  | float x => x == 0.0
  | _ => false

def div (a b : Value) : Except ValueError Value :=
  if b.isZero then .error .divisionByZero else combine .div (· / ·) (· / ·) a b

/-- Numbers are equal by value; values of different kinds are not equal otherwise. -/
def equals : Value → Value → Bool
  | null, null => true
  | str a, str b => a == b
  | int a, int b => a == b
  | int a, float b => widen a == b
  | float a, int b => a == widen b
  | float a, float b => a == b
  | _, _ => false

def orderFloats (a b : Float) : Except ValueError Ordering :=
  if a < b then .ok .lt else if b < a then .ok .gt else if a == b then .ok .eq
  else .error .unordered

/-- Two integers are compared exactly, strings by code points; null has no order. -/
def order : Value → Value → Except ValueError Ordering
  | int a, int b => .ok (compare a b)
  | str a, str b => .ok (compare a b)
  | int a, float b => orderFloats (widen a) b
  | float a, int b => orderFloats a (widen b)
  | float a, float b => orderFloats a b
  | a, b => .error (.cannotOrder a.kind b.kind)

end Value

def ArithOp.apply : ArithOp → Value → Value → Except ValueError Value
  | add, a, b => .ok (a.add b)
  | sub, a, b => a.sub b
  | mul, a, b => a.mul b
  | div, a, b => a.div b

/-- Equality is defined for all values, order only for some. -/
def CompareOp.holds : CompareOp → Value → Value → Except ValueError Bool
  | eq, a, b => .ok (a.equals b)
  | ne, a, b => .ok (!a.equals b)
  | lt, a, b => (a.order b).map (· == .lt)
  | gt, a, b => (a.order b).map (· == .gt)
  | le, a, b => (a.order b).map (· != .gt)
  | ge, a, b => (a.order b).map (· != .lt)

namespace ValueError

def reason : ValueError → String
  | notInteger found => "expected integer, got " ++ found.name
  | notNumber found => "expected number, got " ++ found.name
  | cannotCompute op left right => "cannot " ++ op.verb ++ " " ++ left.name ++ " and " ++ right.name
  | cannotOrder left right => "cannot order " ++ left.name ++ " against " ++ right.name
  | unordered => "cannot order NaN"
  | divisionByZero => "division by zero"

end ValueError

end BlueCode
