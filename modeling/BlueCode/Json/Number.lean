import BlueCode.Decimal.Reading
import BlueCode.Json

namespace BlueCode.Json

/-- What a number in a document stands for: a whole number of 64 bits and a sign, or a double. -/
inductive Number where
  | whole (negative : Bool) (magnitude : Nat)
  | real (x : Float)
  deriving DecidableEq, Repr

namespace Number

def append (n : Nat) (digit : Char) : Nat :=
  n * 10 + (digit.toNat - '0'.toNat)

def toFloat (magnitude : Nat) : Float :=
  (UInt64.ofNat magnitude).toFloat

def pow10 (exponent : Nat) : Float :=
  Decimal.nearestFloat 1 exponent

/-- Multiplies by a power of ten. The digits have been rounded to a double before, and the product
is rounded once more; one that is too large is refused. -/
def scale? (x : Float) (exponent : Int) : Option Float :=
  if exponent.natAbs ≤ 308 then
    if 0 ≤ exponent then
      let product := x * pow10 exponent.natAbs
      if product.isInf then none else some product
    else some (x / pow10 exponent.natAbs)
  else if x == 0.0 then some x
  else if 0 ≤ exponent then none
  else scale? (x / pow10 308) (exponent + 308)
termination_by exponent.natAbs

def saturate (n : Int) : Int :=
  max Int32.minValue.toInt (min Int32.maxValue.toInt n)

def appendExponent? (n : Nat) (digit : Char) : Option Nat :=
  if append n digit ≤ Int32.maxValue.toInt then some (append n digit) else none

/-- The digits behind the letter `e`. If they do not fit 32 bits, the number is zero or refused. -/
def raise? (significand : Nat) (exponent : Int32) (negative : Bool) (digits : List Char) :
    Option Float :=
  match digits.foldlM appendExponent? 0 with
  | some n =>
    scale? (toFloat significand)
      (saturate (exponent.toInt + if negative then -(n : Int) else n))
  | none => if significand = 0 ∨ negative then some 0.0 else none

def power? (significand : Nat) (exponent : Int32) : List Char → Option Float
  | [] => scale? (toFloat significand) exponent.toInt
  | _ :: '+' :: digits => raise? significand exponent false digits
  | _ :: '-' :: digits => raise? significand exponent true digits
  | _ :: digits => raise? significand exponent false digits

/-- The digits behind the point. Those that do not fit 64 bits any more are passed over. -/
def fraction? (significand : Nat) (exponent : Int32) : List Char → Option Float
  | [] => power? significand exponent []
  | c :: cs =>
    if c.isDigit then
      if append significand c < UInt64.size then fraction? (append significand c) (exponent - 1) cs
      else power? significand exponent (cs.dropWhile Char.isDigit)
    else power? significand exponent (c :: cs)

/-- The digits before the point that do not fit 64 bits any more: each counts as a zero. -/
def excess? (significand : Nat) (exponent : Int32) : List Char → Option Float
  | [] => power? significand exponent []
  | c :: cs =>
    if c.isDigit then excess? significand (exponent + 1) cs
    else if c = '.' then fraction? significand exponent cs
    else power? significand exponent (c :: cs)

def signed (negative : Bool) (x : Float) : Number :=
  .real (if negative then -x else x)

def unsigned? (negative : Bool) (significand : Nat) : List Char → Option Number
  | [] => some (.whole negative significand)
  | c :: cs =>
    if c.isDigit then
      if append significand c < UInt64.size then unsigned? negative (append significand c) cs
      else (excess? significand 0 (c :: cs)).map (signed negative)
    else if c = '.' then (fraction? significand 0 cs).map (signed negative)
    else (power? significand 0 (c :: cs)).map (signed negative)

def read? : List Char → Option Number
  | '-' :: cs => unsigned? true 0 cs
  | cs => unsigned? false 0 cs

/-- Minus zero is no integer. -/
def int64? : Number → Option Int64
  | whole false n => if n ≤ Int64.maxValue.toInt then some (Int64.ofNat n) else none
  | whole true n => if 0 < n ∧ n ≤ -Int64.minValue.toInt then some (-Int64.ofNat n) else none
  | real _ => none

def float : Number → Float
  | whole negative n => if negative then -toFloat n else toFloat n
  | real x => x

theorem le_ofDigitChars (ds : List Char) (n : Nat) : n ≤ Nat.ofDigitChars 10 ds n := by
  rw [Nat.ofDigitChars_eq_ofDigitChars_zero]
  exact Nat.le_trans (Nat.le_mul_of_pos_left n (Nat.pow_pos (by decide))) (Nat.le_add_right _ _)

theorem unsigned?_digits {negative : Bool} {ds : List Char} {n : Nat}
    (hds : ∀ c ∈ ds, c.isDigit = true) (hfit : Nat.ofDigitChars 10 ds n < UInt64.size) :
    unsigned? negative n ds = some (.whole negative (Nat.ofDigitChars 10 ds n)) := by
  induction ds generalizing n with
  | nil => rfl
  | cons c ds ih =>
    obtain ⟨hc, hds⟩ := List.forall_mem_cons.1 hds
    have hcons : Nat.ofDigitChars 10 (c :: ds) n = Nat.ofDigitChars 10 ds (append n c) := by
      rw [Nat.ofDigitChars_cons, Nat.mul_comm, append]
    rw [hcons] at hfit ⊢
    have hnext : append n c < UInt64.size := Nat.lt_of_le_of_lt (le_ofDigitChars ds _) hfit
    rw [unsigned?, if_pos hc, if_pos hnext]
    exact ih hds hfit

theorem unsigned?_toDigits {negative : Bool} {n : Nat} (h : n < UInt64.size) :
    unsigned? negative 0 (Nat.toDigits 10 n) = some (.whole negative n) := by
  have hvalue : Nat.ofDigitChars 10 (Nat.toDigits 10 n) 0 = n :=
    Nat.ofDigitChars_toDigits (by decide) (by decide)
  rw [unsigned?_digits (fun _ => Decimal.isDigit_of_mem_toDigits) (hvalue.symm ▸ h), hvalue]

theorem read?_intChars (n : Int64) :
    (read? (Decimal.intChars n.toInt)).bind int64? = some n := by
  have hmin := Int64.minValue_le_toInt n
  have hmax := Int64.toInt_le n
  have hnegative : -Int64.minValue.toInt < UInt64.size := by decide
  have hpositive : Int64.maxValue.toInt < UInt64.size := by decide
  unfold Decimal.intChars
  split
  · next hneg =>
    rw [read?, unsigned?_toDigits (by omega), Option.bind_some, int64?, if_pos (by omega)]
    rw [← Int64.ofInt_eq_ofNat, ← Int64.ofInt_neg, show -(n.toInt.natAbs : Int) = n.toInt by omega,
      Int64.ofInt_toInt]
  · next hneg =>
    have hread : read? (Nat.toDigits 10 n.toInt.natAbs) =
        unsigned? false 0 (Nat.toDigits 10 n.toInt.natAbs) := by
      unfold read?
      split
      · next rest h =>
        exact absurd (Decimal.isDigit_of_mem_toDigits (h ▸ List.mem_cons_self)) (by decide)
      · rfl
    rw [hread, unsigned?_toDigits (by omega), Option.bind_some, int64?, if_pos (by omega)]
    rw [← Int64.ofInt_eq_ofNat, show (n.toInt.natAbs : Int) = n.toInt by omega, Int64.ofInt_toInt]

end Number

end BlueCode.Json
