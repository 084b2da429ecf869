namespace BlueCode.Decimal

def splitSign : List Char → Bool × List Char
  | '-' :: rest => (true, rest)
  | '+' :: rest => (false, rest)
  | cs => (false, cs)

def readNat? (cs : List Char) : Option Nat :=
  if cs ≠ [] ∧ cs.all Char.isDigit then some (Nat.ofDigitChars 10 cs 0) else none

def readInt? (cs : List Char) : Option Int :=
  match splitSign cs with
  | (negative, digits) => (readNat? digits).map fun n => if negative then -(n : Int) else n

/-- An integer that does not fit 64 bits is refused. -/
def readInt64? (cs : List Char) : Option Int64 :=
  match readInt? cs with
  | some n =>
    if Int64.minValue.toInt ≤ n ∧ n ≤ Int64.maxValue.toInt then some (Int64.ofInt n) else none
  | none => none

def intChars (n : Int) : List Char :=
  if n < 0 then '-' :: Nat.toDigits 10 n.natAbs else Nat.toDigits 10 n.natAbs

theorem isDigit_of_mem_toDigits {n : Nat} {c : Char} (h : c ∈ Nat.toDigits 10 n) :
    c.isDigit = true :=
  Nat.isDigit_of_mem_toDigits (by decide) (by decide) h

theorem readNat?_toDigits (n : Nat) : readNat? (Nat.toDigits 10 n) = some n := by
  have digits : (Nat.toDigits 10 n).all Char.isDigit = true :=
    List.all_eq_true.2 fun _ h => isDigit_of_mem_toDigits h
  rw [readNat?, if_pos ⟨Nat.toDigits_ne_nil, digits⟩]
  rw [Nat.ofDigitChars_toDigits (by decide) (by decide)]

theorem splitSign_toDigits (n : Nat) :
    splitSign (Nat.toDigits 10 n) = (false, Nat.toDigits 10 n) := by
  unfold splitSign
  split
  · next rest h =>
    exact absurd (isDigit_of_mem_toDigits (h ▸ List.mem_cons_self)) (by decide)
  · next rest h =>
    exact absurd (isDigit_of_mem_toDigits (h ▸ List.mem_cons_self)) (by decide)
  · rfl

theorem readInt?_intChars (n : Int) : readInt? (intChars n) = some n := by
  unfold intChars
  split
  · next h =>
    simp only [readInt?, splitSign, readNat?_toDigits, if_true]
    exact congrArg some (show -(n.natAbs : Int) = n by omega)
  · next h =>
    simp only [readInt?, splitSign_toDigits, readNat?_toDigits, Bool.false_eq_true, if_false]
    exact congrArg some (show (n.natAbs : Int) = n by omega)

theorem readInt64?_intChars (n : Int64) : readInt64? (intChars n.toInt) = some n := by
  rw [readInt64?, readInt?_intChars]
  simp only [Int64.minValue_le_toInt, Int64.toInt_le, and_self, if_true, Int64.ofInt_toInt]

/-- The double nearest to `digits * 10 ^ exponent`. -/
def nearestFloat (digits : Nat) (exponent : Int) : Float :=
  Float.ofScientific digits (exponent < 0) exponent.natAbs

def readExponent? : List Char → Option Int
  | [] => some 0
  | c :: rest => if c = 'e' ∨ c = 'E' then readInt? rest else none

/-- Digits with at most one point among them and at least one digit, then perhaps an exponent. -/
def readUnsigned? (cs : List Char) : Option Float :=
  let whole := cs.takeWhile Char.isDigit
  let (fraction, rest) :=
    match cs.dropWhile Char.isDigit with
    | '.' :: rest => (rest.takeWhile Char.isDigit, rest.dropWhile Char.isDigit)
    | rest => ([], rest)
  match readNat? (whole ++ fraction), readExponent? rest with
  | some digits, some exponent => some (nearestFloat digits (exponent - fraction.length))
  | _, _ => none

/-- Besides numbers the names of infinity and of the not-a-number are read, in any case. -/
def readFloat? (cs : List Char) : Option Float :=
  match splitSign cs with
  | (negative, unsigned) =>
    let name := unsigned.map Char.toLower
    let magnitude :=
      if name = ['i', 'n', 'f'] ∨ name = ['i', 'n', 'f', 'i', 'n', 'i', 't', 'y'] then
        some (1.0 / 0.0)
      else if name = ['n', 'a', 'n'] then some (0.0 / 0.0)
      else readUnsigned? unsigned
    magnitude.map fun x => if negative then -x else x

end BlueCode.Decimal
