import BlueCode.Proofs.TextRoundTrip

namespace BlueCode

theorem Loader.Slot.isWritable_of_accepts {o : Operand} (h : Slot.accepts .writable o = true) :
    o.isWritable = true := by
  cases o with
  | name s => exact absurd h Bool.false_ne_true
  | _ => exact h

namespace Instruction

/-- The instruction has the operands that belong to its operation, whatever their texts are. -/
structure Formed (i : Instruction) : Prop where
  arranged : Loader.arrange i.op i.operands = i
  accepted : List.Forall₂ (fun slot o => Loader.Slot.accepts slot o = true) (Loader.slots i.op)
    i.operands

theorem Shaped.formed {i : Instruction} (h : i.Shaped) : i.Formed :=
  ⟨h.arranged, h.accepted⟩

namespace Formed

open Loader (Slot)

variable {i : Instruction}

theorem one_eq (h : i.Formed) {slot : Slot} (hs : Loader.slots i.op = [slot]) :
    ∃ a, slot.accepts a = true ∧ i = Loader.arrange i.op [a] := by
  have accepted := h.accepted
  rw [hs] at accepted
  cases hos : i.operands with
  | nil =>
    rw [hos] at accepted
    cases accepted
  | cons a rest =>
    rw [hos] at accepted
    obtain ⟨ha, hnil⟩ := List.forall₂_cons.1 accepted
    cases List.forall₂_nil_left_iff.1 hnil
    exact ⟨a, ha, by rw [← hos, h.arranged]⟩

theorem two_eq (h : i.Formed) {first second : Slot} (hs : Loader.slots i.op = [first, second]) :
    ∃ a b, first.accepts a = true ∧ second.accepts b = true ∧ i = ⟨i.op, some a, some b⟩ := by
  have accepted := h.accepted
  rw [hs] at accepted
  cases hos : i.operands with
  | nil =>
    rw [hos] at accepted
    cases accepted
  | cons a rest =>
    rw [hos] at accepted
    obtain ⟨ha, accepted⟩ := List.forall₂_cons.1 accepted
    cases rest with
    | nil => cases accepted
    | cons b rest =>
      obtain ⟨hb, hnil⟩ := List.forall₂_cons.1 accepted
      cases List.forall₂_nil_left_iff.1 hnil
      have arranged := h.arranged
      rw [hos] at arranged
      exact ⟨a, b, ha, hb, arranged.symm⟩

theorem mov_eq (h : i.Formed) (hop : i.op = .mov) :
    ∃ a b, b.isWritable = true ∧ i = .mov a b := by
  obtain ⟨a, b, -, hb, he⟩ := h.two_eq (by rw [hop]; rfl)
  exact ⟨a, b, Slot.isWritable_of_accepts hb, by rw [he, hop]; rfl⟩

theorem push_eq (h : i.Formed) (hop : i.op = .push) : ∃ a, i = .push a := by
  obtain ⟨a, -, he⟩ := h.one_eq (by rw [hop]; rfl)
  exact ⟨a, by rw [he, hop]; rfl⟩

theorem pop_eq (h : i.Formed) (hop : i.op = .pop) : ∃ b, b.isWritable = true ∧ i = .pop b := by
  obtain ⟨b, hb, he⟩ := h.one_eq (by rw [hop]; rfl)
  exact ⟨b, Slot.isWritable_of_accepts hb, by rw [he, hop]; rfl⟩

theorem arith_eq (h : i.Formed) {op : ArithOp} (hop : i.op = .arith op) :
    ∃ a b, b.isWritable = true ∧ i = ⟨.arith op, some a, some b⟩ := by
  obtain ⟨a, b, -, hb, he⟩ := h.two_eq (by rw [hop]; rfl)
  exact ⟨a, b, Slot.isWritable_of_accepts hb, by rw [he, hop]⟩

theorem call_eq (h : i.Formed) (hop : i.op = .call) : ∃ name, i = .call name := by
  obtain ⟨a, ha, he⟩ := h.one_eq (by rw [hop]; rfl)
  cases a with
  | name s => exact ⟨s, by rw [he, hop]; rfl⟩
  | _ => exact absurd ha Bool.false_ne_true

theorem define_eq (h : i.Formed) (hop : i.op = .define) : ∃ name, i = .define name := by
  obtain ⟨a, ha, he⟩ := h.one_eq (by rw [hop]; rfl)
  cases a with
  | name s => exact ⟨s, by rw [he, hop]; rfl⟩
  | _ => exact absurd ha Bool.false_ne_true

end Formed

end Instruction

end BlueCode
