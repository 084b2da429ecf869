namespace BlueCode.Decimal

inductive Tie where
  | upward
  | toEven
  deriving DecidableEq, Repr

/-- The magnitude `mantissa * 2 ^ exponent` of a finite double. -/
structure Magnitude where
  mantissa : Nat
  exponent : Int
  /-- The next double below is only half as far away as the next one above. -/
  narrowBelow : Bool
  deriving DecidableEq, Repr

/-- Decimal digits, with the power of ten that the first of them counts. -/
structure Digits where
  digits : List Char
  lead : Int
  deriving DecidableEq, Repr

namespace Magnitude

def ofBits (bits : Nat) : Magnitude :=
  let fraction := bits % Nat.pow 2 52
  match bits / Nat.pow 2 52 % Nat.pow 2 11 with
  | 0 => ⟨fraction, -1074, false⟩
  | biased => ⟨fraction + Nat.pow 2 52, biased - 1075, fraction == 0 && biased != 1⟩

/-- A quarter of the last place of the mantissa, in units of `10 ^ grid`, as a fraction. -/
def quarter (m : Magnitude) (grid : Int) : Nat × Nat :=
  (Nat.pow 2 (m.exponent - 2).toNat * Nat.pow 10 (-grid).toNat,
    Nat.pow 2 (2 - m.exponent).toNat * Nat.pow 10 grid.toNat)

def lead (m : Magnitude) : Int :=
  let (num, den) := m.quarter 0
  let scaled := 4 * m.mantissa * num
  if den ≤ scaled then
    ((Nat.toDigits 10 (scaled / den)).length : Int) - 1
  else
    -((Nat.toDigits 10 ((den - 1) / scaled)).length : Int)

/-- The multiple of `10 ^ grid` nearest to the number among those that round to it. -/
def nearest (m : Magnitude) (tie : Tie) (grid : Int) : Option Nat :=
  let (num, den) := m.quarter grid
  let value := 4 * m.mantissa * num
  let low := (4 * m.mantissa - if m.narrowBelow then 1 else 2) * num
  let high := (4 * m.mantissa + 2) * num
  let inside (count : Nat) : Bool :=
    if m.mantissa % 2 = 0 then low ≤ count * den ∧ count * den ≤ high
    else low < count * den ∧ count * den < high
  let below := value / den
  match inside below, inside (below + 1) with
  | false, false => none
  | true, false => some below
  | false, true => some (below + 1)
  | true, true =>
    match compare (value - below * den) ((below + 1) * den - value) with
    | .lt => some below
    | .gt => some (below + 1)
    | .eq =>
      match tie with
      | .upward => some (below + 1)
      | .toEven => some (if below % 2 = 0 then below else below + 1)

def floor (m : Magnitude) (grid : Int) : Nat :=
  let (num, den) := m.quarter grid
  4 * m.mantissa * num / den

/-- Seventeen digits always suffice for a double, so the coarsest of the seventeen grids that has a
decimal rounding to the number decides. -/
def shortest (m : Magnitude) (tie : Tie) : Digits :=
  let found := (List.range 17).findSome? fun (k : Nat) =>
    (m.nearest tie (m.lead - k)).map fun count => (count, m.lead - k)
  let (count, grid) := found.getD (m.floor (m.lead - 16), m.lead - 16)
  let digits := Nat.toDigits 10 count
  ⟨(digits.reverse.dropWhile (· == '0')).reverse, grid + digits.length - 1⟩

end Magnitude

end BlueCode.Decimal
