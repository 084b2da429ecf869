import BlueCode.Proofs.LineText

namespace BlueCode.Decimal

def IsDigits (w : List Char) : Prop :=
  w ≠ [] ∧ ∀ c ∈ w, c.isDigit = true

section Reading

variable {c : Char} {w : List Char}

theorem splitSign_of_isDigit (hc : c.isDigit = true) (cs : List Char) :
    splitSign (c :: cs) = (false, c :: cs) := by
  unfold splitSign
  split
  · next heq =>
    rw [(List.cons.inj heq).1] at hc
    exact absurd hc (by decide)
  · next heq =>
    rw [(List.cons.inj heq).1] at hc
    exact absurd hc (by decide)
  · rfl

theorem IsDigits.readNat? (hd : IsDigits w) :
    readNat? w = some (Nat.ofDigitChars 10 w 0) :=
  if_pos ⟨hd.1, List.all_eq_true.2 hd.2⟩

theorem IsDigits.append {v : List Char} (hd : IsDigits w) (hv : ∀ d ∈ v, d.isDigit = true) :
    IsDigits (w ++ v) :=
  ⟨by simp [hd.1], List.forall_mem_append.2 ⟨hd.2, hv⟩⟩

theorem IsDigits.readInt64? (hd : IsDigits w) : readInt64? w =
    if (Nat.ofDigitChars 10 w 0 : Int) ≤ Int64.maxValue.toInt then
      some (.ofInt (Nat.ofDigitChars 10 w 0)) else none := by
  obtain ⟨c, v, rfl⟩ := List.exists_cons_of_ne_nil hd.1
  have least : Int64.minValue.toInt ≤ (Nat.ofDigitChars 10 (c :: v) 0 : Int) := by
    have : Int64.minValue.toInt ≤ 0 := by decide
    omega
  have value : readInt? (c :: v) = some ↑(Nat.ofDigitChars 10 (c :: v) 0) := by
    rw [readInt?, splitSign_of_isDigit (hd.2 c List.mem_cons_self)]
    simp only [hd.readNat?, Bool.false_eq_true, if_false]
    rfl
  simp only [readInt64?, value, least, true_and]

theorem readFloat?_digits {fraction : List Char} (hd : IsDigits w) (hf : IsDigits fraction) :
    readFloat? (w ++ '.' :: fraction) = some
      (nearestFloat (Nat.ofDigitChars 10 (w ++ fraction) 0) (-fraction.length)) := by
  obtain ⟨c, v, rfl⟩ := List.exists_cons_of_ne_nil hd.1
  have hc : c.isDigit = true := hd.2 c List.mem_cons_self
  have point : ∀ d ∈ ('.' :: fraction).head?, d.isDigit = false := by
    rintro d ⟨⟩
    decide
  have whole : (c :: v ++ '.' :: fraction).takeWhile Char.isDigit = c :: v :=
    Loader.takeWhile_append_of_forall hd.2 point
  have behind : (c :: v ++ '.' :: fraction).dropWhile Char.isDigit = '.' :: fraction := by
    rw [List.dropWhile_append_of_pos hd.2, Text.dropWhile_of_head point]
  have digits : fraction.takeWhile Char.isDigit = fraction := List.takeWhile_eq_self_iff.2 hf.2
  have empty : fraction.dropWhile Char.isDigit = [] := List.dropWhile_eq_nil_iff.2 hf.2
  have unsigned : readUnsigned? (c :: v ++ '.' :: fraction) = some
      (nearestFloat (Nat.ofDigitChars 10 (c :: v ++ fraction) 0) (-fraction.length)) := by
    simp only [readUnsigned?, whole, behind, digits, empty, (hd.append hf.2).readNat?,
      readExponent?, Int.zero_sub]
  have sign : splitSign (c :: v ++ '.' :: fraction) =
      (false, c :: v ++ '.' :: fraction) :=
    splitSign_of_isDigit hc _
  -- The names of infinity and of the not-a-number start with a letter.
  have name (first : Char) (others : List Char) (hfirst : first.isDigit = false) :
      (c :: v ++ '.' :: fraction).map Char.toLower ≠ first :: others := by
    intro he
    have hsame : c = first := by
      rw [← Loader.toLower_of_isDigit hc]
      exact (List.cons.inj he).1
    rw [hsame, hfirst] at hc
    cases hc
  rw [readFloat?, sign]
  simp only [name 'i' _ rfl, name 'n' _ rfl, or_self, if_false, unsigned, Option.map_some,
    Bool.false_eq_true]

end Reading

theorem isDigits_toDigits (n : Nat) : IsDigits (Nat.toDigits 10 n) :=
  ⟨Nat.toDigits_ne_nil, fun _ hc => isDigit_of_mem_toDigits hc⟩

theorem head?_toDigits_ne {n : Nat} (h : 0 < n) : (Nat.toDigits 10 n).head? ≠ some '0' := by
  induction n using Nat.strong_induction_on with
  | _ n ih =>
    rw [Nat.toDigits_eq_if (by decide)]
    split
    · next hn =>
      have digit : ∀ d < 10, 0 < d → [Nat.digitChar d].head? ≠ some '0' := by decide
      exact digit n hn h
    · next hn =>
      rw [List.head?_append_of_ne_nil _ Nat.toDigits_ne_nil]
      exact ih (n / 10) (by omega) (by omega)

namespace Magnitude

variable {m : Magnitude}

theorem quarter_pos (m : Magnitude) (grid : Int) :
    0 < (m.quarter grid).1 ∧ 0 < (m.quarter grid).2 := by
  constructor <;> apply Nat.mul_pos <;> exact Nat.pow_pos (by decide)

/-- Whether a multiple of `10 ^ grid` rounds to the number. -/
def inside (m : Magnitude) (grid : Int) (count : Nat) : Bool :=
  let (num, den) := m.quarter grid
  let low := (4 * m.mantissa - if m.narrowBelow then 1 else 2) * num
  let high := (4 * m.mantissa + 2) * num
  if m.mantissa % 2 = 0 then low ≤ count * den ∧ count * den ≤ high
  else low < count * den ∧ count * den < high

theorem inside_of_nearest {tie : Tie} {grid : Int} {count : Nat}
    (h : m.nearest tie grid = some count) : m.inside grid count = true := by
  unfold nearest at h
  dsimp only at h
  split at h
  · cases h
  · next hbelow _ =>
    cases h
    exact hbelow
  · next _ habove =>
    cases h
    exact habove
  · next hbelow habove =>
    split at h
    · cases h
      exact hbelow
    · cases h
      exact habove
    · cases tie with
      | upward =>
        cases h
        exact habove
      | toEven =>
        cases h
        split
        · exact hbelow
        · exact habove

theorem pos_of_inside {grid : Int} {count : Nat} (hm : m.mantissa ≠ 0)
    (h : m.inside grid count = true) : 0 < count := by
  have low : 0 < (4 * m.mantissa - if m.narrowBelow then 1 else 2) * (m.quarter grid).1 := by
    apply Nat.mul_pos _ (m.quarter_pos grid).1
    split <;> omega
  apply Nat.pos_of_ne_zero
  rintro rfl
  unfold inside at h
  dsimp only at h
  split at h
  · have := (of_decide_eq_true h).1
    omega
  · have := (of_decide_eq_true h).1
    omega

theorem lead_eq (m : Magnitude) : m.lead =
    if (m.quarter 0).2 ≤ 4 * m.mantissa * (m.quarter 0).1 then
      ((Nat.toDigits 10 (4 * m.mantissa * (m.quarter 0).1 / (m.quarter 0).2)).length : Int) - 1
    else -((Nat.toDigits 10 (((m.quarter 0).2 - 1) /
      (4 * m.mantissa * (m.quarter 0).1))).length : Int) := rfl

theorem le_lead (hm : m.mantissa ≠ 0) : (m.quarter 0).2 * 10 ^ m.lead.toNat ≤
    4 * m.mantissa * (m.quarter 0).1 * 10 ^ (-m.lead).toNat := by
  have hscaled : 0 < 4 * m.mantissa * (m.quarter 0).1 :=
    Nat.mul_pos (by omega) (m.quarter_pos 0).1
  have hden : 0 < (m.quarter 0).2 := (m.quarter_pos 0).2
  rw [lead_eq]
  generalize 4 * m.mantissa * (m.quarter 0).1 = scaled at hscaled ⊢
  generalize (m.quarter 0).2 = den at hden ⊢
  split
  · next hle =>
    have hpos : 0 < scaled / den := Nat.div_pos hle hden
    have hlength : 0 < (Nat.toDigits 10 (scaled / den)).length := Nat.length_toDigits_pos
    generalize hn : (Nat.toDigits 10 (scaled / den)).length = n at hlength
    have hpow : 10 ^ (n - 1) ≤ scaled / den := by
      by_contra hlt
      rcases Nat.eq_zero_or_pos (n - 1) with h0 | h0
      · rw [h0] at hlt
        omega
      · have := (Nat.length_toDigits_le_iff (by decide) h0).2 (not_le.1 hlt)
        omega
    have hmul : 10 ^ (n - 1) * den ≤ scaled := (Nat.le_div_iff_mul_le hden).1 hpow
    have hup : ((n : Int) - 1).toNat = n - 1 := by omega
    have hdown : (-((n : Int) - 1)).toNat = 0 := by omega
    rw [hup, hdown, Nat.pow_zero, Nat.mul_one, Nat.mul_comm]
    exact hmul
  · next hlt =>
    have hlength : 0 < (Nat.toDigits 10 ((den - 1) / scaled)).length := Nat.length_toDigits_pos
    generalize hn : (Nat.toDigits 10 ((den - 1) / scaled)).length = n at hlength
    have hpow : (den - 1) / scaled < 10 ^ n :=
      (Nat.length_toDigits_le_iff (by decide) hlength).1 hn.le
    have hmul : den - 1 < 10 ^ n * scaled := (Nat.div_lt_iff_lt_mul hscaled).1 hpow
    have hup : (-(n : Int)).toNat = 0 := by omega
    have hdown : (- -(n : Int)).toNat = n := by omega
    rw [hup, hdown, Nat.pow_zero, Nat.mul_one, Nat.mul_comm scaled]
    omega

theorem floor_pos (hm : m.mantissa ≠ 0) : 0 < m.floor (m.lead - 16) := by
  apply Nat.div_pos _ (m.quarter_pos _).2
  have hlead := le_lead hm
  have hup : 10 ^ (m.lead - 16).toNat ≤ 10 ^ m.lead.toNat :=
    Nat.pow_le_pow_right (by decide) (by omega)
  have hdown : 10 ^ (-m.lead).toNat ≤ 10 ^ (-(m.lead - 16)).toNat :=
    Nat.pow_le_pow_right (by decide) (by omega)
  simp only [quarter, Nat.pow_eq, Int.toNat_zero, Int.neg_zero, Nat.pow_zero, Nat.mul_one]
    at hlead ⊢
  calc
    2 ^ (2 - m.exponent).toNat * 10 ^ (m.lead - 16).toNat
      ≤ 2 ^ (2 - m.exponent).toNat * 10 ^ m.lead.toNat := Nat.mul_le_mul_left _ hup
    _ ≤ 4 * m.mantissa * 2 ^ (m.exponent - 2).toNat * 10 ^ (-m.lead).toNat := hlead
    _ ≤ 4 * m.mantissa * 2 ^ (m.exponent - 2).toNat * 10 ^ (-(m.lead - 16)).toNat :=
      Nat.mul_le_mul_left _ hdown
    _ = 4 * m.mantissa * (2 ^ (m.exponent - 2).toNat * 10 ^ (-(m.lead - 16)).toNat) :=
      Nat.mul_assoc ..

/-- The digits of a number are those of a positive multiple, up to the zeros at the end. -/
theorem exists_count (hm : m.mantissa ≠ 0) (tie : Tie) : ∃ count, 0 < count ∧
    (m.shortest tie).digits = ((Nat.toDigits 10 count).reverse.dropWhile (· == '0')).reverse := by
  unfold shortest
  cases hfound : (List.range 17).findSome? fun (k : Nat) =>
      (m.nearest tie (m.lead - k)).map fun count => (count, m.lead - k) with
  | none => exact ⟨m.floor (m.lead - 16), floor_pos hm, rfl⟩
  | some found =>
    obtain ⟨count, grid⟩ := found
    obtain ⟨k, -, hk⟩ := List.exists_of_findSome?_eq_some hfound
    obtain ⟨_, hnearest, he⟩ := Option.map_eq_some_iff.1 hk
    cases he
    exact ⟨count, pos_of_inside hm (inside_of_nearest hnearest), rfl⟩

theorem shortest_digits (hm : m.mantissa ≠ 0) (tie : Tie) :
    IsDigits (m.shortest tie).digits ∧ (m.shortest tie).digits.head? ≠ some '0' := by
  obtain ⟨count, hcount, hdigits⟩ := exists_count hm tie
  have hhead : (Nat.toDigits 10 count).head? ≠ some '0' := head?_toDigits_ne hcount
  have split : Nat.toDigits 10 count = (m.shortest tie).digits ++
      ((Nat.toDigits 10 count).reverse.takeWhile (· == '0')).reverse := by
    rw [hdigits, ← List.reverse_append, List.takeWhile_append_dropWhile, List.reverse_reverse]
  have hne : (m.shortest tie).digits ≠ [] := by
    intro hnil
    rw [hnil, List.nil_append] at split
    obtain ⟨c, rest, hrest⟩ := List.exists_cons_of_ne_nil (@Nat.toDigits_ne_nil count 10)
    rw [hrest, List.head?_cons] at hhead
    have hc : c ∈ (Nat.toDigits 10 count).reverse.takeWhile (· == '0') := by
      rw [← List.mem_reverse, ← split, hrest]
      exact List.mem_cons_self
    have hzero : c = '0' := by simpa using List.mem_takeWhile_imp hc
    exact hhead (congrArg some hzero)
  refine ⟨⟨hne, fun c hc => isDigit_of_mem_shortest hc⟩, ?_⟩
  rw [split, List.head?_append_of_ne_nil _ hne] at hhead
  exact hhead

end Magnitude

end BlueCode.Decimal
