import BlueCode.Decimal.Shortest

namespace BlueCode.Decimal

structure Layout where
  /-- The exponents of the leading digit from the first up to, not including, the second are written
  without an exponent; `none` writes every number so. -/
  plain : Option (Int × Int)
  wholePoint : Bool
  exponentPlus : Bool
  tie : Tie
  deriving DecidableEq, Repr

namespace Layout

/-- The layout of literals: small and large numbers get an exponent, whole ones a fraction. -/
def literal : Layout := ⟨some (-4, 16), true, false, .upward⟩

/-- The layout of printed values: never an exponent, and no fraction on whole numbers. -/
def printed : Layout := ⟨none, false, false, .upward⟩

def positional (l : Layout) (d : Digits) : List Char :=
  if d.lead < 0 then
    '0' :: '.' :: List.replicate (-d.lead - 1).toNat '0' ++ d.digits
  else
    let whole := d.lead.toNat + 1
    if d.digits.length ≤ whole then
      d.digits ++ List.replicate (whole - d.digits.length) '0' ++
        if l.wholePoint then ['.', '0'] else []
    else
      d.digits.take whole ++ '.' :: d.digits.drop whole

def scientific (l : Layout) (d : Digits) : List Char :=
  let significand :=
    match d.digits with
    | first :: second :: rest => first :: '.' :: second :: rest
    | short => short
  let exponent := Nat.toDigits 10 d.lead.natAbs
  significand ++ 'e' ::
    if d.lead < 0 then '-' :: exponent else if l.exponentPlus then '+' :: exponent else exponent

def isPlain (l : Layout) (lead : Int) : Bool :=
  match l.plain with
  | none => true
  | some (low, high) => low ≤ lead && lead < high

def magnitude (l : Layout) (m : Magnitude) : List Char :=
  let d := m.shortest l.tie
  if l.isPlain d.lead then l.positional d else l.scientific d

/-- A not-a-number has no sign; zero keeps its own. -/
def chars (l : Layout) (x : Float) : List Char :=
  let bits := x.toBits.toNat
  let m := Magnitude.ofBits bits
  if x.isNaN then ['N', 'a', 'N']
  else
    let unsigned :=
      if x.isInf then ['i', 'n', 'f']
      else if m.mantissa = 0 then l.positional ⟨['0'], 0⟩
      else l.magnitude m
    if bits < Nat.pow 2 63 then unsigned else '-' :: unsigned

def text (l : Layout) (x : Float) : String :=
  String.ofList (l.chars x)

end Layout

end BlueCode.Decimal
