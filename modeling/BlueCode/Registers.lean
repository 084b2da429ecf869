import BlueCode.Value

namespace BlueCode

inductive Register where
  | ra
  | rb
  | rc
  | rd
  | re
  | rf
  | rg
  | rh
  deriving DecidableEq, Repr

namespace Register

def all : List Register :=
  [ra, rb, rc, rd, re, rf, rg, rh]

def index : Register → Fin 8
  | ra => 0
  | rb => 1
  | rc => 2
  | rd => 3
  | re => 4
  | rf => 5
  | rg => 6
  | rh => 7

def name : Register → String
  | ra => "ra"
  | rb => "rb"
  | rc => "rc"
  | rd => "rd"
  | re => "re"
  | rf => "rf"
  | rg => "rg"
  | rh => "rh"

def ofName? (name : String) : Option Register :=
  all.find? (·.name == name)

@[simp] theorem ofName?_name (r : Register) : ofName? r.name = some r := by
  cases r <;> decide

theorem index_injective {r s : Register} (h : r.index = s.index) : r = s := by
  cases r <;> cases s <;> first | rfl | exact absurd h (by decide)

end Register

structure Registers where
  general : Vector Value 8
  stackPointer : Int64
  deriving DecidableEq

namespace Registers

def initial : Registers := ⟨Vector.replicate 8 .null, 0⟩

def get (r : Registers) (reg : Register) : Value :=
  r.general[reg.index]

def set (r : Registers) (reg : Register) (value : Value) : Registers :=
  { r with general := r.general.set reg.index value }

def accumulator (r : Registers) : Value :=
  r.get .ra

def takeAccumulator (r : Registers) : Value × Registers :=
  (r.accumulator, r.set .ra .null)

@[simp] theorem get_set_same (r : Registers) (reg : Register) (v : Value) :
    (r.set reg v).get reg = v := by
  simp [get, set]

theorem get_set_other (r : Registers) {reg other : Register} (v : Value) (h : reg ≠ other) :
    (r.set reg v).get other = r.get other := by
  have : reg.index.val ≠ other.index.val := fun e => h (Register.index_injective (Fin.ext e))
  simp [get, set, Vector.getElem_set_ne, this]

theorem set_get (r : Registers) (reg : Register) : r.set reg (r.get reg) = r := by
  simp [set, get]

theorem set_comm (r : Registers) {reg other : Register} (v w : Value) (h : reg ≠ other) :
    (r.set reg v).set other w = (r.set other w).set reg v := by
  have hne : reg.index.val ≠ other.index.val := fun e => h (Register.index_injective (Fin.ext e))
  simp only [set, Registers.mk.injEq, and_true]
  exact Vector.set_comm v w hne

@[simp] theorem stackPointer_set (r : Registers) (reg : Register) (v : Value) :
    (r.set reg v).stackPointer = r.stackPointer := rfl

@[simp] theorem get_initial (reg : Register) : initial.get reg = .null := by
  simp [get, initial]

end Registers

end BlueCode
