import BlueCode.Decimal.Layout
import BlueCode.Decimal.Reading
import BlueCode.Registers

namespace BlueCode

inductive Opcode where
  | mov
  | push
  | pop
  | arith (op : ArithOp)
  | compare (op : CompareOp)
  | define
  | call
  | ret
  | jump
  /-- Jumps if its source is zero. -/
  | jumpIfNot
  | label
  deriving DecidableEq, Repr

namespace Opcode

def marker : String := "--"

def mnemonic : Opcode → String
  | mov => "mov"
  | push => "push"
  | pop => "pop"
  | arith .add => "add"
  | arith .sub => "sub"
  | arith .mul => "mul"
  | arith .div => "div"
  | compare .eq => "cmpeq"
  | compare .ne => "cmpne"
  | compare .lt => "cmplt"
  | compare .gt => "cmpgt"
  | compare .le => "cmple"
  | compare .ge => "cmpge"
  | define => marker
  | call => "call"
  | ret => "ret"
  | jump => "jmp"
  | jumpIfNot => "jne"
  | label => "pt"

/-- The operations that have a mnemonic: all but the function marker. -/
def named : List Opcode :=
  [mov, push, pop] ++ ArithOp.all.map arith ++ [call, ret, jump, jumpIfNot, label] ++
    CompareOp.all.map compare

def ofMnemonic? (mnemonic : String) : Option Opcode :=
  named.find? (·.mnemonic == mnemonic)

theorem ofMnemonic?_mnemonic {op : Opcode} (h : op ≠ .define) :
    ofMnemonic? op.mnemonic = some op := by
  cases op with
  | arith op => cases op <;> decide
  | compare op => cases op <;> decide
  | define => exact absurd rfl h
  | _ => decide

def isArithmetic : Opcode → Bool
  | arith _ => true
  | _ => false

def isComparison : Opcode → Bool
  | compare _ => true
  | _ => false

end Opcode

inductive Operand where
  | reg (r : Register)
  | stackPointer
  /-- The stack cell that the stack pointer points to. -/
  | stackTop
  | heap (address : Int64)
  | int (n : Int64)
  | float (x : Float)
  | str (s : String)
  | name (s : String)
  deriving DecidableEq, Repr

namespace Operand

def isWritable : Operand → Bool
  | reg _ | stackPointer | stackTop | heap _ => true
  | _ => false

def register? : Operand → Option Register
  | reg r => some r
  | _ => none

def chars : Operand → List Char
  | reg r => r.name.toList
  | stackPointer => "rsp".toList
  | stackTop => "[rsp]".toList
  | heap address => '[' :: Decimal.intChars address.toInt ++ [']']
  | int n => Decimal.intChars n.toInt
  | float x => Decimal.Layout.literal.chars x
  | str s => '"' :: s.toList ++ ['"']
  | name s => s.toList

/-- The operand as it stands in a line. Nothing in a string is escaped. -/
def text (o : Operand) : String :=
  String.ofList o.chars

/-- The same operand, where floating-point numbers are the same if they are equal as numbers. -/
def same : Operand → Operand → Bool
  | float x, float y => x == y
  | a, b => a = b

end Operand

structure Instruction where
  op : Opcode
  src : Option Operand
  dst : Option Operand
  deriving DecidableEq, Repr

namespace Instruction

def mov (src dst : Operand) : Instruction := ⟨.mov, some src, some dst⟩

def push (src : Operand) : Instruction := ⟨.push, some src, none⟩

def pop (dst : Operand) : Instruction := ⟨.pop, none, some dst⟩

def define (name : String) : Instruction := ⟨.define, some (.name name), none⟩

def call (name : String) : Instruction := ⟨.call, some (.name name), none⟩

def ret : Instruction := ⟨.ret, none, none⟩

def jump (label : String) : Instruction := ⟨.jump, some (.name label), none⟩

def jumpIfNot (condition : Operand) (label : String) : Instruction :=
  ⟨.jumpIfNot, some condition, some (.name label)⟩

def label (name : String) : Instruction := ⟨.label, some (.name name), none⟩

def targetOperand (i : Instruction) : Option Operand :=
  match i.op with
  | .define | .call | .jump | .label => i.src
  | .jumpIfNot => i.dst
  | _ => none

def target? (i : Instruction) : Option String :=
  match i.targetOperand with
  | some (.name s) => some s
  | _ => none

def target (i : Instruction) : String :=
  i.target?.getD ""

def operandChars : Option Operand → List Char
  | some o => ' ' :: o.chars
  | none => []

def chars (i : Instruction) : List Char :=
  match i.op with
  | .define => Opcode.marker.toList ++ i.target.toList
  | op => op.mnemonic.toList ++ operandChars i.src ++ operandChars i.dst

def text (i : Instruction) : String :=
  String.ofList i.chars

end Instruction

def assemble (code : List Instruction) : String :=
  String.ofList (code.flatMap fun i => i.chars ++ ['\n'])

inductive Builtin where
  | print
  | exit
  | sleep
  deriving DecidableEq, Repr

namespace Builtin

def all : List Builtin := [print, exit, sleep]

def name : Builtin → String
  | print => "print"
  | exit => "exit"
  | sleep => "sleep"

def ofName? (name : String) : Option Builtin :=
  all.find? (·.name == name)

@[simp] theorem ofName?_name (b : Builtin) : ofName? b.name = some b := by
  cases b <;> decide

def arity : Builtin → Nat × Nat
  | print => (0, 1)
  | exit => (1, 1)
  | sleep => (1, 1)

end Builtin

end BlueCode
