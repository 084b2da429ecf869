import BlueCode.Program.Json
import BlueCode.Proofs.JsonText

namespace BlueCode

open Json.Lexer

namespace Decimal

theorem isDigits_zero : IsDigits ['0'] :=
  ⟨by simp, by simp⟩

theorem whole_toDigits (n : Nat) : Whole (Nat.toDigits 10 n) := by
  rcases Nat.eq_zero_or_pos n with rfl | hn
  · exact .inl rfl
  · exact .inr ⟨isDigits_toDigits n, head?_toDigits_ne hn⟩

theorem Whole.unsigned {w : List Char} (h : Whole w) : Unsigned w := by
  have unsigned := Unsigned.mk h .none .none
  rw [List.append_nil, List.append_nil] at unsigned
  exact unsigned

theorem Whole.point {w ds : List Char} (h : Whole w) (hd : IsDigits ds) :
    Unsigned (w ++ '.' :: ds) := by
  have unsigned := Unsigned.mk h (.digits hd) .none
  rw [List.append_nil] at unsigned
  exact unsigned

theorem numeral_intChars (n : Int) : Numeral (intChars n) := by
  unfold intChars
  split
  · exact .minus (Whole.unsigned (whole_toDigits _))
  · exact .plain (Whole.unsigned (whole_toDigits _))

namespace Layout

variable {d : Digits}

theorem isDigit_of_mem_zeros {n : Nat} : ∀ c ∈ List.replicate n '0', c.isDigit = true := by
  intro c hc
  rw [List.eq_of_mem_replicate hc]
  decide

theorem unsigned_positional (hd : IsDigits d.digits) (hz : d.digits.head? ≠ some '0') :
    Unsigned (json.positional d) := by
  unfold positional
  split
  · refine Whole.point (.inl rfl) ⟨by simp [hd.1], ?_⟩
    exact List.forall_mem_append.2 ⟨isDigit_of_mem_zeros, hd.2⟩
  · dsimp only
    split
    · refine Whole.point (.inr ⟨hd.append isDigit_of_mem_zeros, ?_⟩) isDigits_zero
      rw [List.head?_append_of_ne_nil _ hd.1]
      exact hz
    · next hlength =>
      refine Whole.point (.inr ⟨⟨?_, fun c hc => hd.2 c (List.mem_of_mem_take hc)⟩, ?_⟩)
        ⟨?_, fun c hc => hd.2 c (List.mem_of_mem_drop hc)⟩
      · simp [hd.1]
      · rw [List.head?_take, if_neg (by omega)]
        exact hz
      · intro hnil
        have := List.drop_eq_nil_iff.1 hnil
        omega

theorem exponent_scientific (n : Int) : Exponent ('e' ::
    if n < 0 then '-' :: Nat.toDigits 10 n.natAbs else '+' :: Nat.toDigits 10 n.natAbs) := by
  split
  · exact .minus (isDigits_toDigits _)
  · exact .plus (isDigits_toDigits _)

theorem unsigned_scientific (hd : IsDigits d.digits) (hz : d.digits.head? ≠ some '0') :
    Unsigned (json.scientific d) := by
  have exponent := exponent_scientific d.lead
  unfold scientific
  obtain ⟨digits, lead⟩ := d
  dsimp only at hd hz exponent ⊢
  cases digits with
  | nil => exact absurd rfl hd.1
  | cons first others =>
    have whole : Whole [first] := .inr ⟨⟨by simp, by simpa using hd.2 first⟩, hz⟩
    cases others with
    | nil => exact .mk whole .none exponent
    | cons second others =>
      have fraction : IsDigits (second :: others) :=
        ⟨by simp, fun c hc => hd.2 c (List.mem_cons_of_mem _ hc)⟩
      exact .mk whole (.digits fraction) exponent

theorem unsigned_magnitude {m : Magnitude} (hm : m.mantissa ≠ 0) :
    Unsigned (json.magnitude m) := by
  obtain ⟨hd, hz⟩ := Magnitude.shortest_digits hm json.tie
  unfold magnitude
  dsimp only
  split
  · exact unsigned_positional hd hz
  · exact unsigned_scientific hd hz

theorem numeral_chars {x : Float} (hx : x.isFinite = true) : Numeral (json.chars x) := by
  obtain ⟨hn, hi⟩ := isNaN_of_isFinite hx
  simp only [chars, hn, hi, Bool.false_eq_true, if_false]
  have unsigned : Unsigned (if (Magnitude.ofBits x.toBits.toNat).mantissa = 0
      then json.positional ⟨['0'], 0⟩ else json.magnitude (Magnitude.ofBits x.toBits.toNat)) := by
    split
    · exact Whole.point (.inl rfl) isDigits_zero
    · next hm => exact unsigned_magnitude hm
  split
  · exact .plain unsigned
  · exact .minus unsigned

end Layout

end Decimal

end BlueCode
