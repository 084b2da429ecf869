import BlueCode.Proofs.FloatOrder
import BlueCode.Proofs.Rounding

namespace BlueCode

open Float.Model (UnpackedFloat Format totalExponent)
open Float.Model.UnpackedFloat

theorem log2_shiftLeft {n : Nat} (hn : n ≠ 0) (d : Nat) : (n <<< d).log2 = n.log2 + d := by
  have least := Nat.mul_le_mul_right (2 ^ d) (Nat.log2_self_le hn)
  have greatest := Nat.mul_lt_mul_of_pos_right (Nat.lt_log2_self (n := n)) (Nat.two_pow_pos d)
  rw [← Nat.pow_add] at least greatest
  rw [Nat.shiftLeft_eq, Nat.log2_eq_iff (Nat.mul_ne_zero hn (Nat.two_pow_pos d).ne')]
  exact ⟨least, Nat.add_right_comm .. ▸ greatest⟩

theorem log2_lt_of_lt {n k : Nat} (hk : 0 < k) (h : n < 2 ^ k) : n.log2 < k := by
  rcases Nat.eq_zero_or_pos n with rfl | hn
  · exact hk
  · exact (Nat.log2_lt hn.ne').2 h

/-- `q` is `n` in units of its last place, rounded to nearest, and `m` and `e` are the mantissa and
exponent of that number. -/
structure Nearest (n q m : Nat) (e : Int) : Prop where
  normal : Normal q (n.log2 - 52) m e
  near : Near (n * 2 ^ 52) (2 ^ n.log2) q

theorem round_natural {n : Nat} (hn : n ≠ 0) : ∃ q m e hm,
    UnpackedFloat.round .binary64 .positive n 0 = .finite .positive m e hm ∧ Nearest n q m e := by
  obtain ⟨d, hd⟩ : ∃ d, d = 52 - n.log2 := ⟨_, rfl⟩
  obtain ⟨k, hk⟩ : ∃ k, k = n.log2 - 52 := ⟨_, rfl⟩
  have amount : (0 - Format.binary64.targetExponent (totalExponent n 0)).toNat = d := by
    rw [targetExponent_binary64, totalExponent]
    omega
  have long : (n <<< d).log2 = 52 + k := by
    rw [log2_shiftLeft hn]
    omega
  have nonzero : n <<< d ≠ 0 := by
    intro h
    rw [h, Nat.log2_zero] at long
    omega
  obtain ⟨q, m, e, hm, rounded, normal, near⟩ :=
    roundWithAccuracy_eq .positive nonzero long (e := 0 - d) (by omega)
  refine ⟨q, m, e, hm, ?_, ?_, ?_⟩
  · rw [← rounded]
    simp only [UnpackedFloat.round, decreaseExponent, amount]
  · have : (0 - d + k : Int) = n.log2 - 52 := by omega
    rwa [← this]
  · -- The shifted number is `2 ^ d` times as large, and so is its unit.
    have shifted : n <<< d * 2 ^ 52 = n * 2 ^ 52 * 2 ^ d := by
      rw [Nat.shiftLeft_eq, Nat.mul_right_comm]
    have unit : 2 ^ k * 2 ^ 52 = 2 ^ n.log2 * 2 ^ d := by
      rw [← Nat.pow_add, ← Nat.pow_add]
      congr 1
      omega
    rw [← Near.mul_iff (Nat.two_pow_pos d), ← shifted, ← unit]
    exact (Near.mul_iff (by decide)).2 near

variable {n n' q q' m m' : Nat} {e e' : Int}

theorem Nearest.le_of_lt (h : Nearest n q m e) (h' : Nearest n' q' m' e') (hlt : n < n') :
    (toLex (e, (m : Int)) : Int ×ₗ Int) ≤ toLex (e', (m' : Int)) := by
  rw [Prod.Lex.toLex_le_toLex]
  have logs : n.log2 ≤ n'.log2 := by
    rw [Nat.log2_eq_log_two, Nat.log2_eq_log_two]
    exact Nat.log_mono_right hlt.le
  have order : n.log2 < n'.log2 ∨ n.log2 = n'.log2 ∧ q ≤ q' := by
    rcases logs.lt_or_eq with hlog | hlog
    · exact .inl hlog
    · refine .inr ⟨hlog, h.near.le_of_lt (hlog ▸ h'.near) ?_⟩
      exact Nat.mul_lt_mul_of_pos_right hlt (by decide)
  obtain ⟨normal, -⟩ := h
  obtain ⟨normal', -⟩ := h'
  cases normal <;> cases normal' <;> simp only <;> omega

/-- Up to `2 ^ 53` no bit is lost. -/
theorem Nearest.exact (h : Nearest n q m e) (hle : n ≤ 2 ^ 53) : q * 2 ^ n.log2 = n * 2 ^ 52 := by
  obtain ⟨c, whole⟩ : ∃ c, n * 2 ^ 52 = c * 2 ^ n.log2 := by
    rcases hle.lt_or_eq with hlt | rfl
    · have short : n.log2 < 53 := log2_lt_of_lt (by decide) hlt
      refine ⟨n * 2 ^ (52 - n.log2), ?_⟩
      rw [Nat.mul_assoc, ← Nat.pow_add, Nat.sub_add_cancel (by omega)]
    · exact ⟨2 ^ 52, by rw [Nat.log2_two_pow, Nat.mul_comm]⟩
  have near := h.near
  rw [whole] at near ⊢
  rw [near.eq_of_units (Nat.two_pow_pos _)]

theorem Nearest.fits (h : Nearest n q m e) (hle : n ≤ 2 ^ 53) : m = q ∧ e = n.log2 - 52 := by
  have exact := h.exact hle
  have greatest := Nat.lt_log2_self (n := n)
  have : q * 2 ^ n.log2 < 2 ^ 53 * 2 ^ n.log2 := by grind
  have short : q < 2 ^ 53 := Nat.lt_of_mul_lt_mul_right this
  obtain ⟨normal, -⟩ := h
  cases normal with
  | fits => exact ⟨rfl, rfl⟩
  | carry hq => exact absurd hq short.ne

theorem Nearest.inj (h : Nearest n q m e) (h' : Nearest n' q' m e) (hn : n ≤ 2 ^ 53)
    (hn' : n' ≤ 2 ^ 53) : n = n' := by
  have exact := h.exact hn
  obtain ⟨rfl, rfl⟩ := h.fits hn
  obtain ⟨rfl, exponents⟩ := h'.fits hn'
  have logs : n.log2 = n'.log2 := by omega
  rw [logs, h'.exact hn'] at exact
  omega

theorem Nearest.storable (h : Nearest n q m e) (hn : n < 2 ^ 64) : Storable m e := by
  have := log2_lt_of_lt (by decide) hn
  obtain ⟨normal, -⟩ := h
  cases normal <;> refine ⟨?_, ?_, ?_, ?_⟩ <;> omega

theorem unpack_ofModel_pack {u : UnpackedFloat} {s : Sign} {hm : 0 < m}
    (hu : u = .finite s m e hm) (h : Storable m e) : (Float.Model.pack u).unpack = u := by
  subst hu
  exact unpack_pack s h hm

theorem unpack_toFloat {a : UInt64} (ha : a.toNat ≠ 0) : ∃ q m e hm,
    a.toFloat.toModel.unpack = .finite .positive m e hm ∧ Nearest a.toNat q m e := by
  obtain ⟨q, m, e, hm, rounded, nearest⟩ := round_natural ha
  refine ⟨q, m, e, hm, ?_, nearest⟩
  have value : UnpackedFloat.ofUInt64 .binary64 a = .finite .positive m e hm := by
    rw [← rounded]
    have : compare (a.toNat : Int) 0 = .gt := by
      rw [Int.compare_eq_gt]
      omega
    simp only [UnpackedFloat.ofUInt64, UnpackedFloat.ofNat, UnpackedFloat.ofInt,
      UnpackedFloat.normalize, this, Int.toNat_natCast]
  rw [← value]
  exact unpack_ofModel_pack value (nearest.storable a.toNat_lt)

theorem unpack_neg {x : Float} {hm : 0 < m} (hx : x.toModel.unpack = .finite .positive m e hm)
    (h : Storable m e) : (-x).toModel.unpack = .finite .negative m e hm := by
  have value : x.toModel.unpack.neg = .finite .negative m e hm := by
    rw [hx]
    rfl
  rw [← value]
  exact unpack_ofModel_pack value h

theorem toNat_toUInt64 {n : Int64} (h : ¬n < 0) : n.toUInt64.toNat = n.toInt.natAbs := by
  have hn : ¬n.toBitVec.toInt < 0 := fun hlt => h (Int64.lt_iff_toInt_lt.2 hlt)
  change n.toBitVec.toNat = n.toBitVec.toInt.natAbs
  rw [BitVec.toInt_eq_toNat_cond] at hn ⊢
  bv_omega

theorem toNat_toUInt64_neg {n : Int64} (h : n < 0) : (-n).toUInt64.toNat = n.toInt.natAbs := by
  have hn : n.toBitVec.toInt < 0 := Int64.lt_iff_toInt_lt.1 h
  change (-n.toBitVec).toNat = n.toBitVec.toInt.natAbs
  rw [BitVec.toInt_eq_toNat_cond] at hn ⊢
  bv_omega

/-- An integer is widened to its sign and the number nearest to its magnitude. -/
inductive Widened (n : Int) : UnpackedFloat → Prop where
  | zero : n = 0 → Widened n (.zero .positive)
  | positive {q m : Nat} {e : Int} (hm : 0 < m) :
      0 < n → Nearest n.natAbs q m e → Widened n (.finite .positive m e hm)
  | negative {q m : Nat} {e : Int} (hm : 0 < m) :
      n < 0 → Nearest n.natAbs q m e → Widened n (.finite .negative m e hm)

theorem widened (n : Int64) : Widened n.toInt (widen n).toModel.unpack := by
  have sign : n < 0 ↔ n.toInt < 0 := Int64.lt_iff_toInt_lt
  rcases lt_trichotomy n.toInt 0 with hlt | heq | hgt
  · have abs := toNat_toUInt64_neg (sign.2 hlt)
    obtain ⟨q, m, e, hm, value, nearest⟩ := unpack_toFloat (a := (-n).toUInt64) (by omega)
    rw [widen, if_pos (sign.2 hlt), unpack_neg value (nearest.storable (UInt64.toNat_lt _))]
    exact .negative hm hlt (abs ▸ nearest)
  · obtain rfl : n = 0 := Int64.toInt_inj.1 heq
    exact .zero rfl
  · have hn : ¬n < 0 := fun h => hgt.not_gt (sign.1 h)
    have abs := toNat_toUInt64 hn
    obtain ⟨q, m, e, hm, value, nearest⟩ := unpack_toFloat (a := n.toUInt64) (by omega)
    rw [widen, if_neg hn, value]
    exact .positive hm hgt (abs ▸ nearest)

variable {i j : Int} {a b : UnpackedFloat}

theorem Widened.ne_notANumber (h : Widened i a) : a ≠ .notANumber := by
  cases h <;> exact UnpackedFloat.noConfusion

theorem neg_le_neg_of_toLex_le (h : (toLex (e, (m : Int)) : Int ×ₗ Int) ≤ toLex (e', (m' : Int))) :
    (toLex (-e', -(m' : Int)) : Int ×ₗ Int) ≤ toLex (-e, -(m : Int)) := by
  rw [Prod.Lex.toLex_le_toLex] at h ⊢
  omega

theorem Widened.le_of_lt (h : Widened i a) (h' : Widened j b) (hlt : i < j) :
    unpackedRank a ≤ unpackedRank b := by
  have signs {s s' : Int} {r r' : Int ×ₗ Int} (hs : s < s') :
    (toLex (s, r) : Rank) ≤ toLex (s', r') := Prod.Lex.toLex_le_toLex.2 (.inl hs)
  have same {s : Int} {r r' : Int ×ₗ Int} (hr : r ≤ r') :
    (toLex (s, r) : Rank) ≤ toLex (s, r') := Prod.Lex.toLex_le_toLex.2 (.inr ⟨rfl, hr⟩)
  cases h with
  | zero hi =>
    cases h' with
    | zero | negative => omega
    | positive => exact signs (by decide)
  | positive _ hi near =>
    cases h' with
    | zero | negative => omega
    | positive _ hj near' => exact same (near.le_of_lt near' (by omega))
  | negative _ hi near =>
    cases h' with
    | zero | positive => exact signs (by decide)
    | negative _ hj near' => exact same (neg_le_neg_of_toLex_le (near'.le_of_lt near (by omega)))

theorem Widened.inj (h : Widened i a) (h' : Widened j b) (heq : unpackedRank a = unpackedRank b)
    (hi : i.natAbs ≤ 2 ^ 53) (hj : j.natAbs ≤ 2 ^ 53) : i = j := by
  cases h with
  | zero zi =>
    cases h' with
    | zero zj => rw [zi, zj]
    | positive | negative => cases heq
  | positive _ si near =>
    cases h' with
    | zero | negative => cases heq
    | positive _ sj near' =>
      cases heq
      have := near.inj near' hi hj
      omega
  | negative _ si near =>
    cases h' with
    | zero | positive => cases heq
    | negative _ sj near' =>
      obtain ⟨exponents, mantissas⟩ := Prod.mk.inj (toLex_inj.1 (Prod.mk.inj (toLex_inj.1 heq)).2)
      obtain rfl := Int.neg_inj.1 exponents
      obtain rfl := Int.ofNat_inj.1 (Int.neg_inj.1 mantissas)
      have := near.inj near' hi hj
      omega

theorem isNaN_widen (n : Int64) : (widen n).isNaN = false :=
  isNaN_eq_false_iff.2 (widened n).ne_notANumber

theorem rank_widen_mono {m n : Int64} (h : m ≤ n) : rank (widen m) ≤ rank (widen n) := by
  rcases (Int64.le_iff_toInt_le.1 h).lt_or_eq with hlt | heq
  · exact (widened m).le_of_lt (widened n) hlt
  · rw [Int64.toInt_inj.1 heq]

theorem rank_widen_inj {m n : Int64} (h : rank (widen m) = rank (widen n))
    (hm : m.toInt.natAbs ≤ 2 ^ 53) (hn : n.toInt.natAbs ≤ 2 ^ 53) : m = n :=
  Int64.toInt_inj.1 ((widened m).inj (widened n) h hm hn)

end BlueCode
