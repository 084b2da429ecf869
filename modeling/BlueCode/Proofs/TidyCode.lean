import BlueCode.Proofs.Emission

namespace BlueCode

/-- The number of values that wait on the stack after an operation, if so many wait before it. There
is none if nothing waits for a pop, or if something waits where the code returns, jumps or has a
label. -/
def Opcode.settle : Opcode → Nat → Option Nat
  | .push, waiting => some (waiting + 1)
  | .pop, 0 => none
  | .pop, waiting + 1 => some waiting
  | .ret, _ + 1 | .jump, _ + 1 | .jumpIfNot, _ + 1 | .label, _ + 1 => none
  | _, waiting => some waiting

def settle (waiting : Nat) (code : List Instruction) : Option Nat :=
  code.foldlM (fun waiting i => i.op.settle waiting) waiting

@[simp] theorem settle_nil (waiting : Nat) : settle waiting [] = some waiting := rfl

@[simp] theorem settle_cons (waiting : Nat) (i : Instruction) (rest : List Instruction) :
    settle waiting (i :: rest) = (i.op.settle waiting).bind (settle · rest) := rfl

theorem settle_append (waiting : Nat) (first rest : List Instruction) :
    settle waiting (first ++ rest) = (settle waiting first).bind (settle · rest) :=
  List.foldlM_append ..

theorem settle_append_zero {first rest : List Instruction} (hf : settle 0 first = some 0)
    (hr : settle 0 rest = some 0) : settle 0 (first ++ rest) = some 0 := by
  rw [settle_append, hf]
  exact hr

theorem settle_cons_zero {i : Instruction} {rest : List Instruction}
    (hi : i.op.settle 0 = some 0) (hr : settle 0 rest = some 0) :
    settle 0 (i :: rest) = some 0 := by
  rw [settle_cons, hi]
  exact hr

/-- The values that wait on the stack when so many instructions of the code lie behind: each push
leaves one, and each pop takes one. -/
def pending (code : List Instruction) (position : Nat) : Nat :=
  (code.take position).countP (·.op = .push) - (code.take position).countP (·.op = .pop)

theorem Opcode.settle_count {op : Opcode} {waiting after : Nat}
    (h : op.settle waiting = some after) :
    after + (if op = .pop then 1 else 0) = waiting + (if op = .push then 1 else 0) := by
  cases op <;> cases waiting <;> simp_all [Opcode.settle]

theorem settle_count {waiting after : Nat} {code : List Instruction}
    (h : settle waiting code = some after) :
    after + code.countP (·.op = .pop) = waiting + code.countP (·.op = .push) := by
  induction code generalizing waiting with
  | nil =>
    cases h
    rfl
  | cons i rest ih =>
    rw [settle_cons] at h
    obtain ⟨between, hb, hr⟩ := Option.bind_eq_some_iff.1 h
    have hi := Opcode.settle_count hb
    have hrest := ih hr
    simp only [List.countP_cons, decide_eq_true_eq]
    omega

/-- In balanced code `pending` is what `settle` finds on the way. -/
theorem settle_take {after : Nat} {code : List Instruction} (h : settle 0 code = some after)
    (position : Nat) : settle 0 (code.take position) = some (pending code position) := by
  rw [← List.take_append_drop position code, settle_append] at h
  obtain ⟨between, hb, _⟩ := Option.bind_eq_some_iff.1 h
  rw [hb]
  have hcount := settle_count hb
  rw [pending]
  congr 1
  omega

@[simp] theorem pending_zero (code : List Instruction) : pending code 0 = 0 := rfl

theorem pending_length {code : List Instruction} {position : Nat} (h : settle 0 code = some 0)
    (hp : code.length ≤ position) : pending code position = 0 := by
  have ht := settle_take h position
  rw [List.take_of_length_le hp, h] at ht
  exact (Option.some.inj ht).symm

theorem pending_succ {code : List Instruction} {position : Nat} {i : Instruction}
    (h : settle 0 code = some 0) (hi : code[position]? = some i) :
    i.op.settle (pending code position) = some (pending code (position + 1)) := by
  have hs := settle_take h (position + 1)
  rw [List.take_add_one, hi, settle_append, settle_take h position] at hs
  simpa using hs

theorem pending_le (code : List Instruction) (position : Nat) : pending code position ≤ position := by
  have h : (code.take position).countP (·.op = .push) ≤ (code.take position).length :=
    List.countP_le_length
  have hl := List.length_take_le position code
  rw [pending]
  omega

namespace Compile

def IsLabel (label : String) : Prop :=
  ∃ stem ∈ ["PT", "LOOP_START", "LOOP_END"], ∃ n, label = labelName stem n

/-- The instructions of compiled code, where so many variables are declared. -/
inductive Emitted (callable : String → Prop) (declared : Nat) : Instruction → Prop where
  | constant {o : Operand} : Constant o → Emitted callable declared (.mov o acc)
  | load {k : Nat} : k < declared → Emitted callable declared (.mov (.heap (.ofNat k)) acc)
  | store {k : Nat} : k < declared → Emitted callable declared (.mov acc (.heap (.ofNat k)))
  | push : Emitted callable declared (.push acc)
  | pop : Emitted callable declared (.pop (.reg .rb))
  | arith (op : ArithOp) : Emitted callable declared ⟨.arith op, some (.reg .rb), some acc⟩
  | compare (op : CompareOp) : Emitted callable declared ⟨.compare op, some (.reg .rb), some acc⟩
  | call {name : String} : callable name → Emitted callable declared (.call name)
  | ret : Emitted callable declared .ret
  | jump {label : String} : IsLabel label → Emitted callable declared (.jump label)
  | jumpIfNot {label : String} : IsLabel label → Emitted callable declared (.jumpIfNot acc label)
  | label {label : String} : IsLabel label → Emitted callable declared (.label label)

def Uses (code : List Instruction) (k : Nat) : Prop :=
  .mov acc (.heap (.ofNat k)) ∈ code ∨ .mov (.heap (.ofNat k)) acc ∈ code

def jumpTarget? (i : Instruction) : Option String :=
  if i.op = .jump ∨ i.op = .jumpIfNot then some i.target else none

def jumpNames (code : List Instruction) : List String :=
  code.filterMap jumpTarget?

/-- What holds of the code of a function, where so many variables are declared. -/
structure Tidy (callable : String → Prop) (declared : Nat) (body : List Instruction) : Prop where
  emitted : ∀ i ∈ body, Emitted callable declared i
  settles : settle 0 body = some 0
  labels : (labelNames body).Nodup
  resolved : jumpNames body ⊆ labelNames body
  uses : ∀ k < declared, Uses body k

@[simp] theorem labelNames_nil : labelNames [] = [] := rfl

@[simp] theorem labelNames_append (first rest : List Instruction) :
    labelNames (first ++ rest) = labelNames first ++ labelNames rest :=
  List.filterMap_append ..

@[simp] theorem labelNames_label (label : String) (rest : List Instruction) :
    labelNames (.label label :: rest) = label :: labelNames rest := rfl

@[simp] theorem labelNames_jump (label : String) (rest : List Instruction) :
    labelNames (.jump label :: rest) = labelNames rest := rfl

@[simp] theorem labelNames_jumpIfNot (o : Operand) (label : String) (rest : List Instruction) :
    labelNames (.jumpIfNot o label :: rest) = labelNames rest := rfl

@[simp] theorem labelNames_mov (src dst : Operand) (rest : List Instruction) :
    labelNames (.mov src dst :: rest) = labelNames rest := rfl

@[simp] theorem labelNames_ret (rest : List Instruction) :
    labelNames (.ret :: rest) = labelNames rest := rfl

@[simp] theorem jumpNames_nil : jumpNames [] = [] := rfl

@[simp] theorem jumpNames_append (first rest : List Instruction) :
    jumpNames (first ++ rest) = jumpNames first ++ jumpNames rest :=
  List.filterMap_append ..

@[simp] theorem jumpNames_label (label : String) (rest : List Instruction) :
    jumpNames (.label label :: rest) = jumpNames rest := rfl

@[simp] theorem jumpNames_jump (label : String) (rest : List Instruction) :
    jumpNames (.jump label :: rest) = label :: jumpNames rest := rfl

@[simp] theorem jumpNames_jumpIfNot (o : Operand) (label : String) (rest : List Instruction) :
    jumpNames (.jumpIfNot o label :: rest) = label :: jumpNames rest := rfl

@[simp] theorem jumpNames_mov (src dst : Operand) (rest : List Instruction) :
    jumpNames (.mov src dst :: rest) = jumpNames rest := rfl

@[simp] theorem jumpNames_ret (rest : List Instruction) :
    jumpNames (.ret :: rest) = jumpNames rest := rfl

variable {callable : String → Prop} {exit : Option String} {d n d' n' : Nat}
  {code : List Instruction}

theorem Emitted.mono {i : Instruction} (h : Emitted callable d i) (hle : d ≤ d') :
    Emitted callable d' i := by
  cases h with
  | constant ho => exact .constant ho
  | load hk => exact .load (Nat.lt_of_lt_of_le hk hle)
  | store hk => exact .store (Nat.lt_of_lt_of_le hk hle)
  | push => exact .push
  | pop => exact .pop
  | arith op => exact .arith op
  | compare op => exact .compare op
  | call hn => exact .call hn
  | ret => exact .ret
  | jump hl => exact .jump hl
  | jumpIfNot hl => exact .jumpIfNot hl
  | label hl => exact .label hl

theorem Emitted.operation {op : Opcode} (h : op.isArithmetic ∨ op.isComparison) :
    Emitted callable d ⟨op, some (.reg .rb), some acc⟩ := by
  cases op with
  | arith op => exact .arith op
  | compare op => exact .compare op
  | _ => simp [Opcode.isArithmetic, Opcode.isComparison] at h

theorem settle_operation {op : Opcode} (h : op.isArithmetic ∨ op.isComparison) (waiting : Nat) :
    op.settle waiting = some waiting := by
  cases op with
  | arith op => rfl
  | compare op => rfl
  | _ => simp [Opcode.isArithmetic, Opcode.isComparison] at h

theorem ExprCode.forall_mem {P : Instruction → Prop} (h : ExprCode callable d code)
    (constant : ∀ o, Constant o → P (.mov o acc))
    (load : ∀ k < d, P (.mov (.heap (.ofNat k)) acc))
    (store : ∀ k < d, P (.mov acc (.heap (.ofNat k))))
    (push : P (.push acc)) (pop : P (.pop (.reg .rb)))
    (operation : ∀ op : Opcode, op.isArithmetic ∨ op.isComparison →
      P ⟨op, some (.reg .rb), some acc⟩)
    (call : ∀ name, callable name → P (.call name)) : ∀ i ∈ code, P i := by
  induction h with
  | constant ho => exact List.forall_mem_singleton.2 (constant _ ho)
  | load hk => exact List.forall_mem_singleton.2 (load _ hk)
  | store _ hk ih =>
    exact List.forall_mem_append.2 ⟨ih, List.forall_mem_singleton.2 (store _ hk)⟩
  | operation hop _ _ ihl ihr =>
    refine List.forall_mem_append.2 ⟨List.forall_mem_append.2 ⟨ihl, ?_⟩, ?_⟩
    · exact List.forall_mem_cons.2 ⟨push, ihr⟩
    · exact List.forall_mem_cons.2 ⟨pop, List.forall_mem_singleton.2 (operation _ hop)⟩
  | call _ hn ih =>
    refine List.forall_mem_append.2 ⟨?_, List.forall_mem_singleton.2 (call _ hn)⟩
    intro i hi
    obtain ⟨arg, harg, hi⟩ := List.mem_flatten.1 hi
    exact ih arg harg i hi

theorem ExprCode.emitted (h : ExprCode callable d code) : ∀ i ∈ code, Emitted callable d i :=
  h.forall_mem (fun _ => .constant) (fun _ => .load) (fun _ => .store) .push .pop
    (fun _ => .operation) (fun _ => .call)

theorem ExprCode.straight (h : ExprCode callable d code) :
    ∀ i ∈ code, i.op ≠ .label ∧ i.op ≠ .jump ∧ i.op ≠ .jumpIfNot := by
  have mov (src dst : Operand) : (Instruction.mov src dst).op ≠ .label ∧
      (Instruction.mov src dst).op ≠ .jump ∧ (Instruction.mov src dst).op ≠ .jumpIfNot :=
    ⟨nofun, nofun, nofun⟩
  refine h.forall_mem (fun _ _ => mov _ _) (fun _ _ => mov _ _) (fun _ _ => mov _ _) (by decide)
    (by decide) ?_ fun _ _ => ⟨nofun, nofun, nofun⟩
  intro op hop
  cases op <;> simp_all [Opcode.isArithmetic, Opcode.isComparison]

theorem ExprCode.labelNames_eq (h : ExprCode callable d code) : labelNames code = [] :=
  List.filterMap_eq_nil_iff.2 fun i hi => if_neg (h.straight i hi).1

theorem ExprCode.jumpNames_eq (h : ExprCode callable d code) : jumpNames code = [] := by
  refine List.filterMap_eq_nil_iff.2 fun i hi => if_neg ?_
  obtain ⟨-, hj, hn⟩ := h.straight i hi
  exact fun h => h.elim hj hn

/-- What waits on the stack before an expression waits behind it, and nothing else. -/
theorem ExprCode.settle_eq (h : ExprCode callable d code) (waiting : Nat) :
    settle waiting code = some waiting := by
  induction h generalizing waiting with
  | constant => rfl
  | load => rfl
  | store _ _ ih => rw [settle_append, ih]; rfl
  | @operation op left right hop _ _ ihl ihr =>
    calc settle waiting (left ++ .push acc :: right ++ [.pop (.reg .rb), _])
      _ = (settle (waiting + 1) right).bind (settle · [.pop (.reg .rb), _]) := by
        rw [settle_append, settle_append, ihl]
        rfl
      _ = settle waiting [⟨op, some (.reg .rb), some acc⟩] := by
        rw [ihr]
        rfl
      _ = some waiting := by
        rw [settle_cons, settle_operation hop]
        rfl
  | @call args name _ _ ih =>
    have hargs : settle waiting args.flatten = some waiting := by
      clear * - ih
      induction args with
      | nil => rfl
      | cons arg args ihl =>
        rw [List.flatten_cons, settle_append, ih arg List.mem_cons_self]
        exact ihl fun a ha => ih a (List.mem_cons_of_mem arg ha)
    rw [settle_append, hargs]
    rfl

theorem StmtCode.settle_eq (h : StmtCode callable exit d n code d' n') :
    settle 0 code = some 0 := by
  induction h with
  | nil => rfl
  | append _ _ ihf ihr => exact settle_append_zero ihf ihr
  | expr he => exact he.settle_eq 0
  | declare => rfl
  | ret => rfl
  | branch ht _ ih =>
    exact settle_append_zero (settle_append_zero (ht.settle_eq 0) (settle_cons_zero rfl ih)) rfl
  | branchElse ht _ _ ihf ihs =>
    refine settle_append_zero (settle_append_zero (settle_append_zero (ht.settle_eq 0) ?_) ?_) rfl
    · exact settle_cons_zero rfl ihf
    · exact settle_cons_zero rfl (settle_cons_zero rfl ihs)
  | loop ht _ ih =>
    refine settle_append_zero (settle_append_zero ?_ (settle_cons_zero rfl ih)) rfl
    exact settle_cons_zero rfl (ht.settle_eq 0)
  | leave => rfl

theorem StmtCode.mono (h : StmtCode callable exit d n code d' n') : d ≤ d' ∧ n ≤ n' := by
  induction h with
  | nil => exact ⟨Nat.le_refl _, Nat.le_refl _⟩
  | append _ _ ihf ihr => omega
  | expr => exact ⟨Nat.le_refl _, Nat.le_refl _⟩
  | declare => exact ⟨Nat.le_succ _, Nat.le_refl _⟩
  | ret => exact ⟨Nat.le_refl _, Nat.le_refl _⟩
  | branch _ _ ih => omega
  | branchElse _ _ _ ihf ihs => omega
  | loop _ _ ih => omega
  | leave => exact ⟨Nat.le_refl _, Nat.le_refl _⟩

theorem StmtCode.emitted (h : StmtCode callable exit d n code d' n')
    (hexit : ∀ label ∈ exit, IsLabel label) : ∀ i ∈ code, Emitted callable d' i := by
  induction h with
  | nil => exact fun _ hi => nomatch hi
  | append _ hr ihf ihr =>
    exact List.forall_mem_append.2 ⟨fun i hi => (ihf hexit i hi).mono hr.mono.1, ihr hexit⟩
  | expr he => exact he.emitted
  | declare => exact List.forall_mem_singleton.2 (.store (Nat.lt_succ_self _))
  | ret => exact List.forall_mem_singleton.2 .ret
  | branch ht hf ih =>
    have hpt (n : Nat) : IsLabel (labelName "PT" n) := ⟨"PT", by simp, n, rfl⟩
    simp only [List.forall_mem_append, List.forall_mem_cons]
    refine ⟨⟨fun i hi => (ht.emitted i hi).mono hf.mono.1, .jumpIfNot (hpt _), ih hexit⟩,
      .label (hpt _), List.forall_mem_nil _⟩
  | branchElse ht hf hs ihf ihs =>
    have hpt (n : Nat) : IsLabel (labelName "PT" n) := ⟨"PT", by simp, n, rfl⟩
    simp only [List.forall_mem_append, List.forall_mem_cons]
    refine ⟨⟨⟨fun i hi => (ht.emitted i hi).mono (Nat.le_trans hf.mono.1 hs.mono.1),
      .jumpIfNot (hpt _), fun i hi => (ihf hexit i hi).mono hs.mono.1⟩,
      .jump (hpt _), .label (hpt _), ihs hexit⟩, .label (hpt _), List.forall_mem_nil _⟩
  | loop ht hb ih =>
    have hstart (n : Nat) : IsLabel (labelName "LOOP_START" n) := ⟨"LOOP_START", by simp, n, rfl⟩
    have hend (n : Nat) : IsLabel (labelName "LOOP_END" n) := ⟨"LOOP_END", by simp, n, rfl⟩
    simp only [List.forall_mem_append, List.forall_mem_cons]
    refine ⟨⟨⟨.label (hstart _), fun i hi => (ht.emitted i hi).mono hb.mono.1⟩,
      .jumpIfNot (hend _), ih ?_⟩, .jump (hstart _), .label (hend _), List.forall_mem_nil _⟩
    rintro label hl
    cases hl
    exact hend _
  | leave => exact List.forall_mem_singleton.2 (.jump (hexit _ rfl))

/-- Every jump leads to a label of the same code, or behind the loop around it. -/
theorem StmtCode.resolved (h : StmtCode callable exit d n code d' n') :
    ∀ label ∈ jumpNames code, label ∈ labelNames code ∨ exit = some label := by
  induction h with
  | nil => exact List.forall_mem_nil _
  | append _ _ ihf ihr =>
    rw [jumpNames_append, labelNames_append]
    refine List.forall_mem_append.2 ⟨fun label hl => ?_, fun label hl => ?_⟩
    · exact (ihf label hl).imp_left (List.mem_append_left _)
    · exact (ihr label hl).imp_left (List.mem_append_right _)
  | expr he =>
    rw [he.jumpNames_eq]
    exact List.forall_mem_nil _
  | declare => exact List.forall_mem_nil _
  | ret => exact List.forall_mem_nil _
  | branch ht _ ih =>
    intro label
    have := ih label
    simp only [jumpNames_append, ht.jumpNames_eq, jumpNames_jumpIfNot, jumpNames_label,
      labelNames_append, ht.labelNames_eq, labelNames_jumpIfNot, labelNames_label,
      jumpNames_nil, labelNames_nil, List.mem_append, List.mem_cons, List.not_mem_nil]
    tauto
  | branchElse ht _ _ ihf ihs =>
    intro label
    have := ihf label
    have := ihs label
    simp only [jumpNames_append, ht.jumpNames_eq, jumpNames_jumpIfNot, jumpNames_jump,
      jumpNames_label, labelNames_append, ht.labelNames_eq, labelNames_jumpIfNot, labelNames_jump,
      labelNames_label, jumpNames_nil, labelNames_nil, List.mem_append, List.mem_cons,
      List.not_mem_nil]
    tauto
  | loop ht _ ih =>
    intro label
    have := ih label
    simp only [jumpNames_append, ht.jumpNames_eq, jumpNames_jumpIfNot, jumpNames_jump,
      jumpNames_label, labelNames_append, ht.labelNames_eq, labelNames_jumpIfNot, labelNames_jump,
      labelNames_label, jumpNames_nil, labelNames_nil, List.mem_append, List.mem_cons,
      List.not_mem_nil, Option.some.injEq, @eq_comm _ _ label] at this ⊢
    tauto
  | leave =>
    intro label hl
    rw [jumpNames_jump, jumpNames_nil, List.mem_singleton] at hl
    exact .inr (by rw [hl])

theorem StmtCode.stores (h : StmtCode callable exit d n code d' n') :
    ∀ k, d ≤ k → k < d' → .mov acc (.heap (.ofNat k)) ∈ code := by
  induction h with
  | nil => exact fun k hle hlt => absurd hle (Nat.not_le.2 hlt)
  | @append _ _ _ d' _ _ _ _ _ _ _ ihf ihr =>
    intro k hle hlt
    rcases Nat.lt_or_ge k d' with hk | hk
    · exact List.mem_append_left _ (ihf k hle hk)
    · exact List.mem_append_right _ (ihr k hk hlt)
  | expr => exact fun k hle hlt => absurd hle (Nat.not_le.2 hlt)
  | declare =>
    intro k hle hlt
    rw [Nat.le_antisymm (Nat.le_of_lt_succ hlt) hle]
    exact List.mem_singleton_self _
  | ret => exact fun k hle hlt => absurd hle (Nat.not_le.2 hlt)
  | branch _ _ ih =>
    intro k hle hlt
    simp [ih k hle hlt]
  | @branchElse _ _ _ d' _ _ _ _ _ _ _ _ _ ihf ihs =>
    intro k hle hlt
    rcases Nat.lt_or_ge k d' with hk | hk
    · simp [ihf k hle hk]
    · simp [ihs k hk hlt]
  | loop _ _ ih =>
    intro k hle hlt
    simp [ih k hle hlt]
  | leave => exact fun k hle hlt => absurd hle (Nat.not_le.2 hlt)

theorem append_cons_right_inj {α : Type} {c : α} {a b x y : List α} (hx : c ∉ x) (hy : c ∉ y)
    (h : a ++ c :: x = b ++ c :: y) : x = y := by
  rcases List.append_eq_append_iff.1 h with ⟨between, -, h⟩ | ⟨between, -, h⟩
  · cases between with
    | nil => exact (List.cons.inj h).2
    | cons e between =>
      have hmem : c ∈ x := by
        rw [(List.cons.inj h).2]
        exact List.mem_append_right _ List.mem_cons_self
      exact absurd hmem hx
  · cases between with
    | nil => exact (List.cons.inj h).2.symm
    | cons e between =>
      have hmem : c ∈ y := by
        rw [(List.cons.inj h).2]
        exact List.mem_append_right _ List.mem_cons_self
      exact absurd hmem hy

theorem toList_labelName (stem : String) (n : Nat) :
    (labelName stem n).toList = stem.toList ++ '_' :: Nat.toDigits 10 n := by
  simp [labelName, toString, Nat.repr]

theorem labelName_number {stem stem' : String} (h : labelName stem n = labelName stem' n') :
    n = n' := by
  have hl := congrArg String.toList h
  rw [toList_labelName, toList_labelName] at hl
  have hdigits (n : Nat) : '_' ∉ Nat.toDigits 10 n := fun hm =>
    absurd (Decimal.isDigit_of_mem_toDigits hm) (by decide)
  have hn := congrArg Decimal.readNat? (append_cons_right_inj (hdigits n) (hdigits n') hl)
  rw [Decimal.readNat?_toDigits, Decimal.readNat?_toDigits] at hn
  exact Option.some.inj hn

/-- A label with a number from the first up to, not including, the second. -/
def InRange (low high : Nat) (label : String) : Prop :=
  ∃ stem k, label = labelName stem k ∧ low ≤ k ∧ k < high

theorem InRange.mono {low high low' high' : Nat} {label : String} (h : InRange low high label)
    (hl : low' ≤ low) (hh : high ≤ high') : InRange low' high' label := by
  obtain ⟨stem, k, rfl, hlow, hhigh⟩ := h
  exact ⟨stem, k, rfl, Nat.le_trans hl hlow, Nat.lt_of_lt_of_le hhigh hh⟩

theorem InRange.disjoint {low high low' high' : Nat} {label : String} (h : InRange low high label)
    (h' : InRange low' high' label) : low < high' ∧ low' < high := by
  obtain ⟨stem, k, rfl, hlow, hhigh⟩ := h
  obtain ⟨stem', k', he, hlow', hhigh'⟩ := h'
  have := labelName_number he
  omega

theorem inRange_labelName (stem : String) (n : Nat) : InRange n (n + 1) (labelName stem n) :=
  ⟨stem, n, rfl, Nat.le_refl n, Nat.lt_succ_self n⟩

theorem StmtCode.labels_inRange (h : StmtCode callable exit d n code d' n') :
    ∀ label ∈ labelNames code, InRange n n' label := by
  induction h with
  | nil => exact List.forall_mem_nil _
  | append hf hr ihf ihr =>
    rw [labelNames_append]
    refine List.forall_mem_append.2 ⟨fun label hl => ?_, fun label hl => ?_⟩
    · exact (ihf label hl).mono (Nat.le_refl _) hr.mono.2
    · exact (ihr label hl).mono hf.mono.2 (Nat.le_refl _)
  | expr he =>
    rw [he.labelNames_eq]
    exact List.forall_mem_nil _
  | declare => exact List.forall_mem_nil _
  | ret => exact List.forall_mem_nil _
  | branch ht hf ih =>
    have hle := hf.mono.2
    simp only [labelNames_append, ht.labelNames_eq, labelNames_jumpIfNot, labelNames_label,
      labelNames_nil, List.forall_mem_append, List.forall_mem_singleton]
    refine ⟨⟨List.forall_mem_nil _, fun label hl => (ih label hl).mono (by omega) (by omega)⟩, ?_⟩
    exact (inRange_labelName "PT" _).mono (by omega) (by omega)
  | branchElse ht hf hs ihf ihs =>
    have hle := hf.mono.2
    have hle' := hs.mono.2
    simp only [labelNames_append, ht.labelNames_eq, labelNames_jumpIfNot, labelNames_jump,
      labelNames_label, labelNames_nil, List.forall_mem_append, List.forall_mem_cons]
    refine ⟨⟨⟨List.forall_mem_nil _, fun label hl => (ihf label hl).mono (by omega) (by omega)⟩,
      ?_, fun label hl => (ihs label hl).mono (by omega) (by omega)⟩, ?_, List.forall_mem_nil _⟩
    · exact (inRange_labelName "PT" _).mono (by omega) (by omega)
    · exact (inRange_labelName "PT" _).mono (by omega) (by omega)
  | loop ht hb ih =>
    have hle := hb.mono.2
    simp only [labelNames_append, ht.labelNames_eq, labelNames_jumpIfNot, labelNames_jump,
      labelNames_label, labelNames_nil, List.forall_mem_append, List.forall_mem_cons]
    refine ⟨⟨⟨?_, List.forall_mem_nil _⟩,
      fun label hl => (ih label hl).mono (by omega) (by omega)⟩, ?_, List.forall_mem_nil _⟩
    · exact (inRange_labelName "LOOP_START" _).mono (by omega) (by omega)
    · exact (inRange_labelName "LOOP_END" _).mono (by omega) (by omega)
  | leave => exact List.forall_mem_nil _

theorem StmtCode.labelName_notMem (h : StmtCode callable exit d n code d' n') (stem : String)
    {k : Nat} (hk : k < n ∨ n' ≤ k) : labelName stem k ∉ labelNames code := by
  intro hm
  have := (h.labels_inRange _ hm).disjoint (inRange_labelName stem k)
  omega

theorem StmtCode.labels_nodup (h : StmtCode callable exit d n code d' n') :
    (labelNames code).Nodup := by
  induction h with
  | nil => exact List.nodup_nil
  | append hf hr ihf ihr =>
    rw [labelNames_append]
    apply ihf.append ihr
    intro label hl hl'
    have := (hf.labels_inRange label hl).disjoint (hr.labels_inRange label hl')
    omega
  | expr he =>
    rw [he.labelNames_eq]
    exact List.nodup_nil
  | declare => exact List.nodup_nil
  | ret => exact List.nodup_nil
  | @branch _ _ n _ _ _ _ ht hf ih =>
    simp only [labelNames_append, ht.labelNames_eq, labelNames_jumpIfNot, labelNames_label,
      labelNames_nil, List.nil_append]
    rw [List.nodup_append_comm]
    exact List.nodup_cons.2 ⟨hf.labelName_notMem "PT" (by omega), ih⟩
  | @branchElse _ _ n _ n' _ _ _ first second ht hf hs ihf ihs =>
    have hle := hf.mono.2
    have hne : labelName "PT" n' ≠ labelName "PT" n := fun he => by
      have := labelName_number he
      omega
    have hdisjoint : List.Disjoint (labelNames first) (labelNames second) := fun label hl hl' => by
      have := (hf.labels_inRange label hl).disjoint (hs.labels_inRange label hl')
      omega
    have hfirst := hf.labelName_notMem "PT" (k := n) (by omega)
    have hfirst' := hf.labelName_notMem "PT" (k := n') (by omega)
    have hsecond := hs.labelName_notMem "PT" (k := n) (by omega)
    have hsecond' := hs.labelName_notMem "PT" (k := n') (by omega)
    simp only [labelNames_append, ht.labelNames_eq, labelNames_jumpIfNot, labelNames_jump,
      labelNames_label, labelNames_nil, List.nil_append]
    rw [List.nodup_append_comm, List.singleton_append, List.nodup_cons]
    refine ⟨by simp [hfirst', hsecond', hne], ?_⟩
    exact ihf.append (List.nodup_cons.2 ⟨hsecond, ihs⟩)
      (List.disjoint_cons_right.2 ⟨hfirst, hdisjoint⟩)
  | @loop _ _ n _ _ _ _ ht hb ih =>
    have hle := hb.mono.2
    have hne : labelName "LOOP_END" (n + 1) ≠ labelName "LOOP_START" n := fun he => by
      have := labelName_number he
      omega
    have hstart := hb.labelName_notMem "LOOP_START" (k := n) (by omega)
    have hend := hb.labelName_notMem "LOOP_END" (k := n + 1) (by omega)
    simp only [labelNames_append, ht.labelNames_eq, labelNames_jumpIfNot, labelNames_jump,
      labelNames_label, labelNames_nil]
    rw [List.nodup_append_comm, List.singleton_append, List.nodup_cons]
    refine ⟨by simp [hend, hne], ?_⟩
    exact List.nodup_cons.2 ⟨hstart, ih⟩
  | leave => exact List.nodup_nil

theorem StmtCode.tidy (h : StmtCode callable none 0 0 code d n) : Tidy callable d code where
  emitted := h.emitted fun _ hl => nomatch hl
  settles := h.settle_eq
  labels := h.labels_nodup
  resolved label hl := (h.resolved label hl).resolve_right (by simp)
  uses k hk := .inl (h.stores k (Nat.zero_le k) hk)

theorem Emitted.op_ne_define {i : Instruction} (h : Emitted callable d i) : i.op ≠ .define := by
  cases h <;> simp [Instruction.mov, Instruction.push, Instruction.pop, Instruction.call,
    Instruction.ret, Instruction.jump, Instruction.jumpIfNot, Instruction.label]

def cell? (i : Instruction) : Option Int64 :=
  match i.src, i.dst with
  | some (.heap address), _ | _, some (.heap address) => some address
  | _, _ => none

theorem toInt_ofNat {k : Nat} (h : k < 2 ^ 63) : (Int64.ofNat k).toInt = k :=
  Int64.toInt_ofNat_of_lt h

theorem ofNat_inj {k l : Nat} (hk : k < 2 ^ 63) (hl : l < 2 ^ 63)
    (h : Int64.ofNat k = Int64.ofNat l) : k = l := by
  have hi := congrArg Int64.toInt h
  rw [toInt_ofNat hk, toInt_ofNat hl] at hi
  exact Int.ofNat.inj hi

theorem Uses.mem_cells {code : List Instruction} {k : Nat} (h : Uses code k) :
    Int64.ofNat k ∈ code.filterMap cell? := by
  rcases h with h | h
  · exact List.mem_filterMap.2 ⟨_, h, rfl⟩
  · exact List.mem_filterMap.2 ⟨_, h, rfl⟩

namespace Tidy

variable {body : List Instruction}

/-- There are no more variables than instructions, since each instruction is about one of them at
most. -/
theorem declared_le (h : Tidy callable d body) (hl : body.length < 2 ^ 63) : d ≤ body.length := by
  apply Nat.le_of_not_lt
  intro hlt
  have hd : ((List.range (body.length + 1)).map Int64.ofNat).Nodup := by
    refine List.Nodup.map_on (fun k hk k' hk' he => ?_) List.nodup_range
    rw [List.mem_range] at hk hk'
    exact ofNat_inj (by omega) (by omega) he
  have hsub : (List.range (body.length + 1)).map Int64.ofNat ⊆ body.filterMap cell? := by
    intro address ha
    obtain ⟨k, hk, rfl⟩ := List.mem_map.1 ha
    rw [List.mem_range] at hk
    exact (h.uses k (by omega)).mem_cells
  have hle := (hd.subperm hsub).length_le
  have hle' := List.length_filterMap_le cell? body
  simp only [List.length_map, List.length_range] at hle
  omega

theorem room_le (h : Tidy callable d body) (hl : body.length < 2 ^ 63) {i : Instruction}
    (hi : i ∈ body) : Instruction.room i.src ≤ d ∧ Instruction.room i.dst ≤ d := by
  have hd := h.declared_le hl
  have hroom (k : Nat) (hk : k < d) : Instruction.room (some (.heap (.ofNat k))) = k + 1 := by
    rw [Instruction.room, toInt_ofNat (by omega)]
    rfl
  cases h.emitted i hi with
  | constant ho => cases ho <;> exact ⟨Nat.zero_le d, Nat.zero_le d⟩
  | load hk => exact ⟨Nat.le_trans (Nat.le_of_eq (hroom _ hk)) hk, Nat.zero_le d⟩
  | store hk => exact ⟨Nat.zero_le d, Nat.le_trans (Nat.le_of_eq (hroom _ hk)) hk⟩
  | _ => exact ⟨Nat.zero_le d, Nat.zero_le d⟩

theorem loadable (h : Tidy callable d body) (hl : body.length < 2 ^ 63) :
    Routine.Loadable body where
  markerless i hi := (h.emitted i hi).op_ne_define
  labels := h.labels
  addresses i hi := by
    have hd := h.declared_le hl
    have hmax : Instruction.room (some (.heap Int64.maxValue)) = 2 ^ 63 := rfl
    obtain ⟨hs, hd'⟩ := h.room_le hl hi
    constructor
    · intro he
      rw [he, hmax] at hs
      omega
    · intro he
      rw [he, hmax] at hd'
      omega

theorem frameSize_eq (h : Tidy callable d body) (hl : body.length < 2 ^ 63) (name : String) :
    (Routine.ofBody name body).frameSize = d := by
  have hd := h.declared_le hl
  apply Nat.le_antisymm
  · exact (Routine.ofBody_frameSize_le_iff name body d).2 fun i hi => h.room_le hl hi
  · rcases Nat.eq_zero_or_pos d with rfl | hpos
    · exact Nat.zero_le _
    · have hroom : Instruction.room (some (.heap (.ofNat (d - 1)))) = d := by
        rw [Instruction.room, toInt_ofNat (by omega)]
        omega
      rw [← hroom]
      rcases h.uses (d - 1) (by omega) with hu | hu
      · exact (@Routine.room_le_frameSize name _ _ hu).2
      · exact (@Routine.room_le_frameSize name _ _ hu).1

end Tidy

end Compile

end BlueCode
