import BlueCode.Image
import BlueCode.Text.Blank
import BlueCode.Text.Lines
import BlueCode.Text.Word

namespace BlueCode

namespace Loader

/-- Drops a comment. A semicolon inside a string starts none. -/
def uncomment (inString : Bool) : List Char → List Char
  | [] => []
  | c :: rest =>
    if c = '"' then c :: uncomment (!inString) rest
    else if c = ';' ∧ inString = false then []
    else c :: uncomment inString rest

/-- The words of a line: strings in quotes, and runs of characters without blanks. A quote that is
never closed starts no string. -/
def words : List Char → List (List Char)
  | [] => []
  | c :: rest =>
    if Text.isBlank c then words rest
    else if c = '"' ∧ '"' ∈ rest then
      let body := rest.takeWhile (· != '"')
      (c :: body ++ ['"']) :: words (rest.drop (body.length + 1))
    else
      let body := rest.takeWhile (!Text.isBlank ·)
      (c :: body) :: words (rest.drop body.length)
termination_by cs => cs.length
decreasing_by
  all_goals
    simp only [List.length_cons, List.length_drop]
    omega

inductive Slot where
  | readable
  | writable
  | name
  deriving DecidableEq, Repr

def slots : Opcode → List Slot
  | .mov => [.readable, .writable]
  | .push => [.readable]
  | .pop => [.writable]
  | .arith _ => [.readable, .writable]
  | .compare _ => [.readable, .readable]
  | .call | .jump | .label | .define => [.name]
  | .jumpIfNot => [.readable, .name]
  | .ret => []

def bracketed? : List Char → Option (List Char)
  | '[' :: rest => if rest.getLast? = some ']' then some rest.dropLast else none
  | _ => none

def quoted? : List Char → Option (List Char)
  | '"' :: rest => if rest.getLast? = some '"' then some rest.dropLast else none
  | _ => none

/-- Numbers start with a digit, a sign or a point; one with a fraction or an exponent has to be
finite. -/
def number? (word : List Char) : Option Operand :=
  match word with
  | c :: _ =>
    if c.isDigit ∨ c = '-' ∨ c = '+' ∨ c = '.' then
      match Decimal.readInt64? word with
      | some n => some (.int n)
      | none => ((Decimal.readFloat? word).filter (·.isFinite)).map .float
    else none
  | [] => none

def operand? (word : List Char) : Option Operand :=
  let lower := String.ofList (word.map Char.toLower)
  if lower = "rsp" then some .stackPointer
  else if lower = "[rsp]" then some .stackTop
  else
    match Register.ofName? lower with
    | some r => some (.reg r)
    | none =>
      match bracketed? word with
      | some inner => ((Decimal.readInt64? inner).filter (0 ≤ ·)).map .heap
      | none =>
        match quoted? word with
        | some inner => some (.str (String.ofList inner))
        | none => number? word

def Slot.read? (slot : Slot) (word : List Char) : Option Operand :=
  match slot with
  | .name => if Text.isWord word then some (.name (String.ofList word)) else none
  | .readable => operand? word
  | .writable => (operand? word).filter (·.isWritable)

def operands (line : Nat) : List Slot → List (List Char) → Except LoadError (List Operand)
  | slot :: slots, word :: words =>
    match slot.read? word with
    | some o => (operands line slots words).map (o :: ·)
    | none => .error (.badOperand line (String.ofList word))
  | _, _ => .ok []

/-- A single operand is the source, except that of `pop`, which is the destination. -/
def arrange (op : Opcode) : List Operand → Instruction
  | [] => ⟨op, none, none⟩
  | [o] => if op = .pop then .pop o else ⟨op, some o, none⟩
  | src :: dst :: _ => ⟨op, some src, some dst⟩

def instruction (line : Nat) (body : List Char) : Except LoadError Instruction :=
  let bad : LoadError := .badInstruction line (String.ofList body)
  match body with
  | '-' :: '-' :: rest =>
    let name := Text.trim rest
    if Text.isWord name then .ok (.define (String.ofList name)) else .error bad
  | _ =>
    match words body with
    | [] => .error bad
    | mnemonic :: args =>
      match Opcode.ofMnemonic? (String.ofList (mnemonic.map Char.toLower)) with
      | none => .error bad
      | some op =>
        if args.length = (slots op).length then
          (operands line (slots op) args).map (arrange op)
        else .error bad

def body (raw : List Char) : List Char :=
  Text.trim (uncomment false raw)

def line? (number : Nat) (raw : List Char) : Option Image.Line :=
  if body raw = [] then none else some ⟨number, instruction number (body raw)⟩

/-- The lines of a text that hold something, counted from one with the others. -/
def lines (text : String) : List Image.Line :=
  ((Text.lines text.toList).zipIdx 1).filterMap fun (raw, number) => line? number raw

end Loader

def load (text : String) : Except LoadError Image :=
  Image.ofLines (Loader.lines text)

end BlueCode
