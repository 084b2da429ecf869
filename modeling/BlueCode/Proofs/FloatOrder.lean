import Mathlib
import BlueCode.Value

namespace BlueCode

open Float.Model (UnpackedFloat)

/-- Numbers are ranked by infinity and sign, then by exponent, and then by mantissa. -/
abbrev Rank :=
  Int ×ₗ Int ×ₗ Int

def unpackedRank : UnpackedFloat → Rank
  | .infinity .positive => toLex (2, toLex (0, 0))
  | .finite .positive m e _ => toLex (1, toLex (e, m))
  | .zero _ | .notANumber => toLex (0, toLex (0, 0))
  | .finite .negative m e _ => toLex (-1, toLex (-e, -m))
  | .infinity .negative => toLex (-2, toLex (0, 0))

theorem compare_natCast (m n : Nat) : compare (m : Int) (n : Int) = compare m n := by
  simp only [Int.compare_eq_ite_lt, Nat.compare_eq_ite_lt, Int.ofNat_lt]

theorem compare_neg_neg (m n : Int) : compare (-m) (-n) = (compare m n).swap := by
  rw [Int.compare_swap, Int.compare_eq_ite_lt, Int.compare_eq_ite_lt]
  simp only [Int.neg_lt_neg_iff]

theorem compare_unpacked {a b : UnpackedFloat} (ha : a ≠ .notANumber) (hb : b ≠ .notANumber) :
    a.compare b = some (compare (unpackedRank a) (unpackedRank b)) := by
  have ranks (s t e f m n : Int) :
      compare (toLex (s, toLex (e, m)) : Rank) (toLex (t, toLex (f, n))) =
        (compare s t).then ((compare e f).then (compare m n)) := by
    rw [Prod.Lex.compare_def]
    rfl
  cases a with
  | notANumber => exact absurd rfl ha
  | infinity s =>
    cases b with
    | notANumber => exact absurd rfl hb
    | infinity t => cases s <;> cases t <;> rfl
    | zero => cases s <;> rfl
    | finite t => cases s <;> cases t <;> rfl
  | zero =>
    cases b with
    | notANumber => exact absurd rfl hb
    | infinity t => cases t <;> rfl
    | zero => rfl
    | finite t => cases t <;> rfl
  | finite s m e =>
    cases b with
    | notANumber => exact absurd rfl hb
    | infinity t => cases s <;> cases t <;> rfl
    | zero => cases s <;> rfl
    | finite t n f =>
      cases s <;> cases t
      case negative.positive => rfl
      case positive.negative => rfl
      case negative.negative =>
        simp only [UnpackedFloat.compare, unpackedRank, ranks, compare_natCast, compare_neg_neg,
          Ordering.swap_then]
        rfl
      case positive.positive =>
        simp only [UnpackedFloat.compare, unpackedRank, ranks, compare_natCast]
        rfl

theorem compare_eq_some_iff {a b : UnpackedFloat} {o : Ordering} : a.compare b = some o ↔
    a ≠ .notANumber ∧ b ≠ .notANumber ∧ o.Compares (unpackedRank a) (unpackedRank b) := by
  constructor
  · intro h
    have ha : a ≠ .notANumber := by
      rintro rfl
      cases h
    have hb : b ≠ .notANumber := by
      rintro rfl
      cases a <;> cases h
    rw [compare_unpacked ha hb, Option.some.injEq, compare_iff] at h
    exact ⟨ha, hb, h⟩
  · rintro ⟨ha, hb, h⟩
    rw [compare_unpacked ha hb, Option.some.injEq, compare_iff]
    exact h

/-- The rank of a number; what is not a number has that of zero. -/
def rank (x : Float) : Rank :=
  unpackedRank x.toModel.unpack

variable {x y : Float} {o : Ordering}

theorem isNaN_eq_false_iff : x.isNaN = false ↔ x.toModel.unpack ≠ .notANumber := by
  change x.toModel.unpack.isNaN = false ↔ _
  cases x.toModel.unpack <;> simp [UnpackedFloat.isNaN]

theorem float_lt_iff_compare : x < y ↔ x.toModel.unpack.compare y.toModel.unpack = some .lt := by
  change decide (x.toModel < y.toModel) = true ↔ _
  rw [decide_eq_true_iff]
  exact beq_iff_eq

theorem float_beq_iff_compare :
    (x == y) = true ↔ x.toModel.unpack.compare y.toModel.unpack = some .eq := by
  change (x.toModel.unpack.compare y.toModel.unpack == some .eq) = true ↔ _
  exact beq_iff_eq

/-- Floating-point numbers are equal if they have the same rank. -/
theorem float_beq_iff : (x == y) = true ↔ x.isNaN = false ∧ y.isNaN = false ∧ rank x = rank y := by
  rw [float_beq_iff_compare, compare_eq_some_iff, ← isNaN_eq_false_iff, ← isNaN_eq_false_iff]
  rfl

theorem orderFloats_eq_ok_iff : Value.orderFloats x y = .ok o ↔
    x.isNaN = false ∧ y.isNaN = false ∧ o.Compares (rank x) (rank y) := by
  have swapped : y < x ↔ x.toModel.unpack.compare y.toModel.unpack = some .gt := by
    rw [float_lt_iff_compare, compare_eq_some_iff, compare_eq_some_iff]
    exact and_left_comm
  rw [isNaN_eq_false_iff, isNaN_eq_false_iff, rank, rank, ← compare_eq_some_iff]
  simp only [Value.orderFloats, float_lt_iff_compare, swapped, float_beq_iff_compare]
  cases x.toModel.unpack.compare y.toModel.unpack with
  | none => simp
  | some o => cases o <;> simp

end BlueCode
