import BlueCode.Instruction

namespace BlueCode.Peephole

def same : Option Operand → Option Operand → Bool
  | some a, some b => a.same b
  | none, none => true
  | _, _ => false

/-- Whether the second instruction moves back what the first has moved. -/
def isReversedMove (first second : Instruction) : Bool :=
  first.op = .mov && second.op = .mov && first.src.isSome &&
    same first.src second.dst && same first.dst second.src

/-- Whether a register is overwritten in the straight-line code ahead before anything reads it. The
end of the code and whatever may continue elsewhere count as reading it. -/
def isDead (r : Register) : List Instruction → Bool
  | [] => false
  | i :: rest =>
    let inSrc := i.src = some (.reg r)
    let inDst := i.dst = some (.reg r)
    match i.op with
    | .mov => if inSrc then false else if inDst then true else isDead r rest
    | .push => if inSrc then false else isDead r rest
    | .pop => if inDst then true else isDead r rest
    | .arith _ => if inSrc ∨ inDst then false else isDead r rest
    | .compare _ =>
      if inSrc ∨ inDst then false else if r = .ra then true else isDead r rest
    | _ => false

/-- The one instruction that replaces the first three, if it can. The cell on top of the stack is
the one that `pop` removes, so it cannot be read in place. -/
def fuse? : List Instruction → Option Instruction
  | push :: pop :: add :: rest =>
    match push.src, pop.dst with
    | some source, some (.reg r) =>
      if push.op = .push ∧ pop.op = .pop ∧ add.op = .arith .add ∧
          add.src = some (.reg r) ∧ add.dst ≠ some (.reg r) ∧ source ≠ .stackTop ∧
          isDead r rest = true then
        some { add with src := some source }
      else none
    | _, _ => none
  | _ => none

/-- The pass at one place: `before` is what lies behind, the nearest first. -/
def run (before : List Instruction) : List Instruction → List Instruction
  | first :: second :: rest =>
    let stepBack (code : List Instruction) (h : code.length < rest.length + 2) :=
      match before with
      | [] => run [] code
      | last :: earlier => run earlier (last :: code)
    if isReversedMove first second then
      stepBack (first :: rest) (by simp only [List.length_cons]; omega)
    else
      match fuse? (first :: second :: rest) with
      | some fused =>
        stepBack (fused :: rest.drop 1) (by
          simp only [List.length_cons, List.length_drop]
          omega)
      | none => run (first :: before) (second :: rest)
  | rest => before.reverse ++ rest
termination_by code => before.length + 2 * code.length
decreasing_by
  all_goals
    simp only [List.length_cons, List.length_nil] at *
    omega

end Peephole

def optimize (code : List Instruction) : List Instruction :=
  Peephole.run [] code

end BlueCode
