import BlueCode.Value
import Std.Data.ExtHashMap

namespace BlueCode

structure Memory where
  cells : Std.ExtHashMap Int Value

namespace Memory

def empty : Memory := ⟨∅⟩

def get? (m : Memory) (cell : Int) : Option Value :=
  m.cells[cell]?

def set (m : Memory) (cell : Int) (value : Value) : Memory :=
  ⟨m.cells.insert cell value⟩

def erase (m : Memory) (cell : Int) : Memory :=
  ⟨m.cells.erase cell⟩

def eraseEach (m : Memory) (start : Int) : Nat → Memory
  | 0 => m
  | count + 1 => (m.erase start).eraseEach (start + 1) count

/-- Removes the `count` cells from `start` on. If there are more of them than cells in use, the
cells in use are gone through instead. -/
def clear (m : Memory) (start : Int) (count : Nat) : Memory :=
  if count ≤ m.cells.size then m.eraseEach start count
  else ⟨m.cells.filter fun cell _ => !(start ≤ cell && cell < start + count)⟩

theorem ext {m n : Memory} (h : ∀ cell, m.get? cell = n.get? cell) : m = n := by
  cases m; cases n
  congr 1
  exact Std.ExtHashMap.ext_getElem? fun cell => h cell

@[simp] theorem get?_empty (cell : Int) : empty.get? cell = none := by
  simp [get?, empty]

theorem get?_set (m : Memory) (cell other : Int) (v : Value) :
    (m.set cell v).get? other = if cell = other then some v else m.get? other := by
  simp [get?, set, Std.ExtHashMap.getElem?_insert]

theorem get?_erase (m : Memory) (cell other : Int) :
    (m.erase cell).get? other = if cell = other then none else m.get? other := by
  simp [get?, erase, Std.ExtHashMap.getElem?_erase]

theorem set_of_get? {m : Memory} {cell : Int} {v : Value} (h : m.get? cell = some v) :
    m.set cell v = m := by
  refine ext fun other => ?_
  rw [get?_set]
  split
  · next he => rw [← he, h]
  · rfl

theorem erase_set (m : Memory) (cell : Int) (v : Value) : (m.set cell v).erase cell = m.erase cell := by
  refine ext fun other => ?_
  rw [get?_erase, get?_erase, get?_set]
  split
  · rfl
  · rfl

theorem erase_eq_iff {m : Memory} {cell : Int} : m.erase cell = m ↔ m.get? cell = none := by
  constructor
  · intro h
    rw [← h, get?_erase, if_pos rfl]
  · intro h
    refine ext fun other => ?_
    rw [get?_erase]
    split
    · next he => rw [← he, h]
    · rfl

theorem get?_eraseEach (m : Memory) (start : Int) (count : Nat) (cell : Int) :
    (m.eraseEach start count).get? cell =
      if start ≤ cell ∧ cell < start + count then none else m.get? cell := by
  induction count generalizing m start with
  | zero =>
    simp only [eraseEach]
    split
    · omega
    · rfl
  | succ count ih =>
    simp only [eraseEach, ih, get?_erase]
    split <;> split <;> first | rfl | (split <;> first | rfl | omega) | omega

/-- Exactly the cells of the range are gone, whichever way they are found. -/
theorem get?_clear (m : Memory) (start : Int) (count : Nat) (cell : Int) :
    (m.clear start count).get? cell =
      if start ≤ cell ∧ cell < start + count then none else m.get? cell := by
  unfold clear
  split
  · exact get?_eraseEach ..
  · simp only [get?, Std.ExtHashMap.getElem?_filter']
    by_cases h : start ≤ cell ∧ cell < start + count
    · simp [h]
    · simp only [h, if_false]
      cases m.cells[cell]? <;> simp; omega

end Memory

end BlueCode
