import Mathlib.Data.Int.ModEq
import BlueCode.Value

namespace BlueCode

/-- The result of an operation on integers of any size; a quotient is truncated toward zero. -/
def ArithOp.exact : ArithOp → Int → Int → Int
  | add => (· + ·)
  | sub => (· - ·)
  | mul => (· * ·)
  | div => Int.tdiv

namespace Value

variable {a b : Value} {op : ArithOp} {m n j k : Int64} {z : Int}

/-- A number that fits in 64 bits is the only one of its residue. -/
theorem toInt_modEq_iff (hk : k.toInt = z.bmod (2 ^ 64)) : j.toInt ≡ z [ZMOD 2 ^ 64] ↔ j = k := by
  have least := Int64.le_toInt j
  have greatest := Int64.toInt_lt j
  rw [← Int64.toInt_inj, hk, Int.ModEq, Int.bmod_def]
  split <;> omega

theorem apply_ints (h : op = .div → n ≠ 0) : ∃ k : Int64, op.apply (int m) (int n) = .ok (int k) ∧
    k.toInt = (op.exact m.toInt n.toInt).bmod (2 ^ 64) := by
  cases op with
  | add => exact ⟨m + n, rfl, Int64.toInt_add ..⟩
  | sub => exact ⟨m - n, rfl, Int64.toInt_sub ..⟩
  | mul => exact ⟨m * n, rfl, Int64.toInt_mul ..⟩
  | div =>
    refine ⟨m / n, if_neg ?_, Int64.toInt_div ..⟩
    simpa [isZero] using h rfl

theorem isZero_iff : b.isZero = true ↔ b = int 0 ∨ ∃ x, b = float x ∧ (x == 0.0) = true := by
  cases b <;> simp [isZero]

theorem apply_eq_combine (hop : op ≠ .add) (hz : op = .div → b.isZero = false) :
    ∃ onInts onFloats, op.apply a b = combine op onInts onFloats a b := by
  cases op with
  | add => exact absurd rfl hop
  | sub => exact ⟨_, _, rfl⟩
  | mul => exact ⟨_, _, rfl⟩
  | div => exact ⟨_, _, if_neg (Bool.eq_false_iff.1 (hz rfl))⟩

theorem combine_eq_ok_iff {onInts : Int64 → Int64 → Int64} {onFloats : Float → Float → Float} :
    (∃ v, combine op onInts onFloats a b = .ok v) ↔
      a.kind ∈ [.int, .float] ∧ b.kind ∈ [.int, .float] := by
  cases a <;> cases b <;> simp [combine, kind]

theorem combine_eq_error_iff {onInts : Int64 → Int64 → Int64} {onFloats : Float → Float → Float}
    {e : ValueError} : combine op onInts onFloats a b = .error e ↔
      e = .cannotCompute op a.kind b.kind ∧ (a.kind ∈ [.null, .str] ∨ b.kind ∈ [.null, .str]) := by
  cases a <;> cases b <;> simp [combine, kind, eq_comm]

theorem add_eq_join_iff :
    a.add b = str (a.display ++ b.display) ↔ a.kind = .str ∨ b.kind = .str := by
  cases a <;> cases b <;> simp [add, kind, display]

/-- Null has the empty text, so what it adopts is joined with it as well. -/
theorem null_join_str :
    ¬ (ArithOp.add.apply .null (str "x") = .ok (str (null.display ++ (str "x").display)) ↔
      (null ≠ .null ∧ str "x" ≠ .null) ∧ (null.kind = .str ∨ (str "x").kind = .str)) := by
  decide

theorem add_eq_ok : ArithOp.add.apply a b = .ok (a.add b) := rfl

theorem apply_eq_divisionByZero_iff :
    op.apply a b = .error .divisionByZero ↔ op = .div ∧ b.isZero = true := by
  constructor
  · intro h
    by_cases hop : op = .add
    · subst hop
      cases h
    · by_contra hne
      rw [not_and, Bool.not_eq_true] at hne
      obtain ⟨onInts, onFloats, combined⟩ := apply_eq_combine (a := a) hop hne
      rw [combined, combine_eq_error_iff] at h
      cases h.1
  · rintro ⟨rfl, hz⟩
    exact if_pos hz

theorem apply_eq_cannotCompute_iff (hop : op ≠ .add) (hz : op.apply a b ≠ .error .divisionByZero) :
    (op.apply a b = .error (.cannotCompute op a.kind b.kind) ↔
      a.kind ∈ [.null, .str] ∨ b.kind ∈ [.null, .str]) ∧
    ((∃ v, op.apply a b = .ok v) ↔ a.kind ∈ [.int, .float] ∧ b.kind ∈ [.int, .float]) := by
  rw [Ne, apply_eq_divisionByZero_iff, not_and, Bool.not_eq_true] at hz
  obtain ⟨onInts, onFloats, combined⟩ := apply_eq_combine (a := a) hop hz
  rw [combined, combine_eq_error_iff, combine_eq_ok_iff]
  exact ⟨and_iff_right rfl, Iff.rfl⟩

/-- Arithmetic is exact modulo `2 ^ 64` on integers, also where the quotient is out of range, and it
is defined for all values but those that a zero divisor or their kinds exclude. -/
theorem arithmetic_laws :
    (∀ (op : ArithOp) (m n : Int64), (op = .div → n ≠ 0) →
      ∃ k : Int64, op.apply (.int m) (.int n) = .ok (.int k) ∧
        ∀ j : Int64, j.toInt ≡ op.exact m.toInt n.toInt [ZMOD 2 ^ 64] ↔ j = k) ∧
    ArithOp.div.apply (.int Int64.minValue) (.int (-1)) = .ok (.int Int64.minValue) ∧
    (∀ (op : ArithOp) (a b : Value), op.apply a b = .error .divisionByZero ↔
      op = .div ∧ (b = .int 0 ∨ ∃ x, b = .float x ∧ (x == 0.0) = true)) ∧
    (∀ (op : ArithOp) (a b : Value), op ≠ .add → op.apply a b ≠ .error .divisionByZero →
      (op.apply a b = .error (.cannotCompute op a.kind b.kind) ↔
        a.kind ∈ [.null, .str] ∨ b.kind ∈ [.null, .str]) ∧
      ((∃ v, op.apply a b = .ok v) ↔ a.kind ∈ [.int, .float] ∧ b.kind ∈ [.int, .float])) ∧
    (∀ a b : Value, ∃ v, ArithOp.add.apply a b = .ok v) ∧
    (∀ a : Value, ArithOp.add.apply .null a = .ok a ∧ ArithOp.add.apply a .null = .ok a) ∧
    (∀ a b : Value, ArithOp.add.apply a b = .ok (.str (a.display ++ b.display)) ↔
      a.kind = .str ∨ b.kind = .str) := by
  refine ⟨?ints, by decide, ?zero, ?kinds, ?defined, ?null, ?join⟩
  case ints =>
    intro op m n h
    obtain ⟨k, result, residue⟩ := apply_ints h
    exact ⟨k, result, fun j => toInt_modEq_iff residue⟩
  case zero =>
    intro op a b
    rw [apply_eq_divisionByZero_iff, isZero_iff]
  case kinds => exact fun op a b => apply_eq_cannotCompute_iff
  case defined => exact fun a b => ⟨a.add b, add_eq_ok⟩
  case null =>
    intro a
    cases a <;> exact ⟨rfl, rfl⟩
  case join =>
    intro a b
    rw [add_eq_ok, Except.ok.injEq, add_eq_join_iff]

end Value

end BlueCode
