import Mathlib
import BlueCode.Value

namespace BlueCode

open Float.Model (UnpackedFloat Format totalExponent)
open Float.Model.UnpackedFloat

theorem unpackSign_packComponents (s : Sign) (e : BitVec 11) (m : BitVec 52) :
    unpackSign (packComponents .binary64 s e m) = s.toBitVec := by
  have top : (s.toBitVec ++ e ++ m).extractLsb' 63 1 = s.toBitVec := by
    rw [BitVec.extractLsb'_append_eq_of_le (by decide),
      BitVec.extractLsb'_append_eq_of_le (by decide)]
    exact BitVec.extractLsb'_eq_self
  exact top

theorem toNat_leading_one {m : Nat} (hm : 2 ^ 52 ≤ m) (hlt : m < 2 ^ 53) :
    (1#1 ++ BitVec.ofNat 52 m).toNat = m := by
  rw [BitVec.toNat_append, BitVec.toNat_ofNat, BitVec.toNat_ofNat,
    ← Nat.shiftLeft_add_eq_or_of_lt (Nat.mod_lt _ (by decide)), Nat.shiftLeft_eq]
  omega

theorem exponentBias_binary64 : (Format.binary64.exponentBias : Int) = 1023 := rfl

/-- A mantissa of 53 bits, and an exponent that can be stored with it. -/
structure Storable (m : Nat) (e : Int) : Prop where
  least : 2 ^ 52 ≤ m
  short : m < 2 ^ 53
  low : -1074 ≤ e
  high : e ≤ 971

theorem unpack_pack (s : Sign) {m : Nat} {e : Int} (h : Storable m e) (hm : 0 < m) :
    unpack .binary64 (pack .binary64 (.finite s m e hm)) = .finite s m e hm := by
  obtain ⟨least, short, low, high⟩ := h
  have log : m.log2 = 52 := (Nat.log2_eq_iff hm.ne').2 ⟨least, short⟩
  obtain ⟨b, hb⟩ : ∃ b : Nat, e + 1075 = b := ⟨(e + 1075).toNat, by omega⟩
  have biased : (e + (Format.binary64.exponentBias : Int) +
      (Format.binary64.mantissaBitsWithoutImplicit : Int)).toNat = b := by
    simp only [exponentBias_binary64]
    omega
  have hpack : pack .binary64 (.finite s m e hm) =
      packComponents .binary64 s (BitVec.ofNat 11 b) (BitVec.ofNat 52 m) := by
    unfold pack
    simp only [biased]
    rw [if_neg (by simp; omega), if_pos (by rw [log]; rfl)]
  have exponent : (BitVec.ofNat 11 b).toNat = b := by
    rw [BitVec.toNat_ofNat]
    omega
  have differs {x : BitVec 11} (hx : b ≠ x.toNat) : BitVec.ofNat 11 b ≠ x :=
    fun he => hx (exponent.symm.trans (congrArg BitVec.toNat he))
  have notLast : BitVec.ofNat 11 b ≠ -1#11 := differs (by simp; omega)
  have notFirst : BitVec.ofNat 11 b ≠ 0#11 := differs (by simp; omega)
  have hs : Sign.ofBitVec s.toBitVec = s := by cases s <;> rfl
  rw [hpack, unpack]
  simp only [unpackSign_packComponents, unpackExponent_packComponents,
    unpackMantissa_packComponents]
  rw [if_neg notLast, if_neg notFirst]
  simp only [hs, exponent, toNat_leading_one least short]
  congr 1
  simp only [exponentBias_binary64]
  omega

/-- The number of units of `u` that is nearest to `n`, or one of the two that are. -/
def Near (n u q : Nat) : Prop :=
  2 * (q * u) ≤ 2 * n + u ∧ 2 * n ≤ 2 * (q * u) + u

namespace Near

variable {n n' u q q' c : Nat}

theorem mul_iff (hc : 0 < c) : Near (n * c) (u * c) q ↔ Near n u q := by
  have below : 2 * (q * (u * c)) = 2 * (q * u) * c := by ring
  have above : 2 * (n * c) = 2 * n * c := by ring
  rw [Near, Near, below, above, ← Nat.add_mul, ← Nat.add_mul, Nat.mul_le_mul_right_iff hc,
    Nat.mul_le_mul_right_iff hc]

theorem le_of_lt (h : Near n u q) (h' : Near n' u q') (hlt : n < n') : q ≤ q' := by
  have : 2 * q * u < 2 * (q' + 1) * u := by grind [Near]
  have := Nat.lt_of_mul_lt_mul_right this
  omega

theorem eq_of_units (h : Near (c * u) u q) (hu : 0 < u) : q = c := by
  have least : 2 * c * u ≤ (2 * q + 1) * u := by grind [Near]
  have greatest : 2 * q * u ≤ (2 * c + 1) * u := by grind [Near]
  have := Nat.le_of_mul_le_mul_right least hu
  have := Nat.le_of_mul_le_mul_right greatest hu
  omega

end Near

/-- What is left of `n` when `k` bits are cut off. The round bit says whether these are one half of
the last place at least, the sticky bit whether they are neither nothing nor one half. -/
structure Cut (n k : Nat) (x : ExtendedMantissa) : Prop where
  floor : x.mantissa * 2 ^ k ≤ n
  ceil : n < x.mantissa * 2 ^ k + 2 ^ k
  round : x.roundBit = true ↔ 2 * (x.mantissa * 2 ^ k) + 2 ^ k ≤ 2 * n
  sticky : x.stickyBit = true ↔ n ≠ x.mantissa * 2 ^ k ∧ 2 * n ≠ 2 * (x.mantissa * 2 ^ k) + 2 ^ k

variable {n k : Nat} {x : ExtendedMantissa}

theorem cut_exact (n : Nat) : Cut n 0 (.ofMantissaAndAccuracy n .exact) := by
  constructor <;> simp [ExtendedMantissa.ofMantissaAndAccuracy]

theorem Cut.next (h : Cut n k x) : Cut n (k + 1) x.shiftRightOne := by
  obtain ⟨m, r, s⟩ := x
  obtain ⟨q, b, rfl, hb⟩ : ∃ q b, m = 2 * q + b ∧ (b = 0 ∨ b = 1) :=
    ⟨m / 2, m % 2, by omega, by omega⟩
  have shifted : ExtendedMantissa.shiftRightOne ⟨2 * q + b, r, s⟩ = ⟨q, b != 0, r || s⟩ := by
    rw [ExtendedMantissa.shiftRightOne, show (2 * q + b) / 2 = q by omega,
      show (2 * q + b) % 2 = b by omega]
  have power : 2 ^ (k + 1) = 2 * 2 ^ k := Nat.pow_succ'
  have whole : (2 * q + b) * 2 ^ k = 2 * (q * 2 ^ k) + b * 2 ^ k := by ring
  have longer : q * 2 ^ (k + 1) = 2 * (q * 2 ^ k) := by rw [power, Nat.mul_left_comm]
  obtain ⟨floor, ceil, round, sticky⟩ := h
  rw [shifted]
  rw [whole] at floor ceil round sticky
  rcases hb with rfl | rfl
  all_goals
    constructor
    all_goals
      simp only [longer, Bool.or_eq_true, round, sticky, bne_iff_ne]
      omega

theorem Cut.shift (h : Cut n k x) (k' : Nat) : Cut n (k + k') (x >>> k') := by
  induction k' with
  | zero => exact h
  | succ _ ih => exact ih.next

theorem Cut.near (h : Cut n k x) : Near n (2 ^ k) x.roundedMantissa := by
  obtain ⟨m, r, s⟩ := x
  obtain ⟨floor, ceil, round, sticky⟩ := h
  have next : (m + 1) * 2 ^ k = m * 2 ^ k + 2 ^ k := by ring
  -- The two bits tell on which side of one half the rest lies.
  cases r <;> cases s
  case false.false =>
    change 2 * (m * 2 ^ k) ≤ _ ∧ _ ≤ 2 * (m * 2 ^ k) + _
    grind
  case false.true =>
    change 2 * (m * 2 ^ k) ≤ _ ∧ _ ≤ 2 * (m * 2 ^ k) + _
    grind
  case true.true =>
    change 2 * ((m + 1) * 2 ^ k) ≤ _ ∧ _ ≤ 2 * ((m + 1) * 2 ^ k) + _
    grind
  case true.false =>
    change 2 * ((m + m % 2) * 2 ^ k) ≤ _ ∧ _ ≤ 2 * ((m + m % 2) * 2 ^ k) + _
    rcases Nat.mod_two_eq_zero_or_one m with hm | hm
    · rw [hm]
      grind
    · rw [hm]
      grind

theorem targetExponent_binary64 (t : Int) :
    Format.binary64.targetExponent t = max (t - 53) (-1074) := rfl

/-- A mantissa of 53 bits, or the next power of two, with the exponent that belongs to it. -/
inductive Normal (q : Nat) (e : Int) : Nat → Int → Prop where
  | fits : 2 ^ 52 ≤ q → q < 2 ^ 53 → Normal q e q e
  | carry : q = 2 ^ 53 → Normal q e (2 ^ 52) (e + 1)

/-- A number that is nearest with `k` bits cut off keeps 53 bits, but for the carry. -/
theorem Near.bounds {n k q : Nat} (h : Near n (2 ^ k) q) (hn : n ≠ 0) (hlog : n.log2 = 52 + k) :
    2 ^ 52 ≤ q ∧ q ≤ 2 ^ 53 := by
  obtain ⟨low, high⟩ := h
  obtain ⟨least, greatest⟩ := (Nat.log2_eq_iff hn).1 hlog
  have front : 2 ^ (52 + k) = 2 ^ 52 * 2 ^ k := Nat.pow_add ..
  have back : 2 ^ (52 + k + 1) = 2 ^ 53 * 2 ^ k := by rw [← Nat.pow_add]; congr 1; omega
  constructor
  · have : 2 ^ 53 * 2 ^ k ≤ (2 * q + 1) * 2 ^ k := by grind
    have := Nat.le_of_mul_le_mul_right this (Nat.two_pow_pos k)
    omega
  · have : 2 * q * 2 ^ k < (2 ^ 54 + 1) * 2 ^ k := by grind
    have := Nat.lt_of_mul_lt_mul_right this
    omega

theorem shift_binary64 {n k : Nat} {e : Int} (hk : n.log2 + 1 = 53 + k) (he : -1074 ≤ e) :
    shiftToTargetExponent .binary64 n e .exact =
      (ExtendedMantissa.ofMantissaAndAccuracy n .exact >>> k, e + (k : Int)) := by
  have amount : (Format.binary64.targetExponent (totalExponent n e) - e).toNat = k := by
    rw [targetExponent_binary64, totalExponent]
    omega
  simp only [shiftToTargetExponent, shiftToExponent, amount]

theorem roundWithAccuracy_of_shifts (s : Sign) {n q m : Nat} {e e' : Int}
    {first second : ExtendedMantissa × Int}
    (hfirst : shiftToTargetExponent .binary64 n e .exact = first)
    (hq : first.1.roundedMantissa = q)
    (hsecond : shiftToTargetExponent .binary64 q first.2 .exact = second)
    (hm : second.1.mantissa = m) (he : second.2 = e') (hpos : 0 < m) :
    roundWithAccuracy .binary64 s n e .exact = .finite s m e' hpos := by
  subst hfirst hq hsecond hm he
  exact dif_neg hpos.ne'

/-- A mantissa of more than 52 bits is rounded to 53 bits. -/
theorem roundWithAccuracy_eq (s : Sign) {n k : Nat} (hn : n ≠ 0) (hlog : n.log2 = 52 + k) {e : Int}
    (he : -1074 ≤ e) : ∃ q m e' hm,
      roundWithAccuracy .binary64 s n e .exact = .finite s m e' hm ∧ Normal q (e + k) m e' ∧
        Near n (2 ^ k) q := by
  have first := shift_binary64 (n := n) (k := k) (by omega) he
  have cut : Cut n k (ExtendedMantissa.ofMantissaAndAccuracy n .exact >>> k) := by
    have := (cut_exact n).shift k
    rwa [Nat.zero_add] at this
  have near := cut.near
  generalize hq :
    (ExtendedMantissa.ofMantissaAndAccuracy n .exact >>> k).roundedMantissa = q at near
  obtain ⟨hge, hle⟩ := near.bounds hn hlog
  rcases hle.lt_or_eq with hlt | rfl
  · have log : q.log2 = 52 := (Nat.log2_eq_iff (by omega)).2 ⟨hge, hlt⟩
    have second := shift_binary64 (n := q) (k := 0) (e := e + k) (by omega) (by omega)
    have rounded := roundWithAccuracy_of_shifts s first hq second rfl (Int.add_zero _)
      (show 0 < q by omega)
    exact ⟨q, q, e + k, _, rounded, .fits hge hlt, near⟩
  · have log : (2 ^ 53).log2 = 53 := Nat.log2_two_pow
    have second := shift_binary64 (n := 2 ^ 53) (k := 1) (e := e + k) (by omega) (by omega)
    have rounded := roundWithAccuracy_of_shifts s first hq second (m := 2 ^ 52) rfl rfl (by decide)
    exact ⟨2 ^ 53, 2 ^ 52, e + k + 1, _, rounded, .carry rfl, near⟩

end BlueCode
