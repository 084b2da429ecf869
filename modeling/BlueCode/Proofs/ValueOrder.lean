import BlueCode.Proofs.Widening

namespace BlueCode

namespace Value

def floatRank? (x : Float) : Option Rank :=
  if x.isNaN then none else some (rank x)

/-- The rank of a number, integers being widened. -/
def rank? : Value → Option Rank
  | int n => floatRank? (widen n)
  | float x => floatRank? x
  | null | str _ => none

/-- Two numbers of which one is a floating-point number at least. -/
inductive Mixed : Value → Value → Prop where
  | left (n : Int64) (x : Float) : Mixed (int n) (float x)
  | right (x : Float) (n : Int64) : Mixed (float x) (int n)
  | floats (x y : Float) : Mixed (float x) (float y)

/-- The values that are equal. -/
inductive Equal : Value → Value → Prop where
  | null : Equal null null
  | int (n : Int64) : Equal (int n) (int n)
  | str (s : String) : Equal (str s) (str s)
  | mixed {a b : Value} {r : Rank} :
      Mixed a b → a.rank? = some r → b.rank? = some r → Equal a b

/-- The values that have an order. -/
inductive Ordered : Value → Value → Ordering → Prop where
  | ints (m n : Int64) : Ordered (int m) (int n) (compare m n)
  | strings (s t : String) : Ordered (str s) (str t) (compare s t)
  | mixed {a b : Value} {r s : Rank} {o : Ordering} :
      Mixed a b → a.rank? = some r → b.rank? = some s → o.Compares r s → Ordered a b o

variable {a b c : Value} {r s : Rank} {o : Ordering} {m n : Int64} {x y : Float}

theorem floatRank?_eq_some_iff : floatRank? x = some r ↔ x.isNaN = false ∧ rank x = r := by
  rw [floatRank?]
  cases x.isNaN with
  | false => exact ⟨fun h => ⟨rfl, Option.some.inj h⟩, fun h => congrArg some h.2⟩
  | true => exact ⟨nofun, fun h => Bool.noConfusion h.1⟩

theorem rank?_int (n : Int64) : (int n).rank? = some (rank (widen n)) :=
  floatRank?_eq_some_iff.2 ⟨isNaN_widen n, rfl⟩

theorem float_beq_iff_floatRank? :
    (x == y) = true ↔ ∃ r, floatRank? x = some r ∧ floatRank? y = some r := by
  simp only [float_beq_iff, floatRank?_eq_some_iff]
  constructor
  · rintro ⟨hx, hy, heq⟩
    exact ⟨rank y, ⟨hx, heq⟩, hy, rfl⟩
  · rintro ⟨r, ⟨hx, rfl⟩, hy, heq⟩
    exact ⟨hx, hy, heq.symm⟩

theorem orderFloats_iff_floatRank? : orderFloats x y = .ok o ↔
    ∃ r s, floatRank? x = some r ∧ floatRank? y = some s ∧ o.Compares r s := by
  simp only [orderFloats_eq_ok_iff, floatRank?_eq_some_iff]
  constructor
  · rintro ⟨hx, hy, compares⟩
    exact ⟨_, _, ⟨hx, rfl⟩, ⟨hy, rfl⟩, compares⟩
  · rintro ⟨r, s, ⟨hx, rfl⟩, ⟨hy, rfl⟩, compares⟩
    exact ⟨hx, hy, compares⟩

theorem Mixed.symm (h : Mixed a b) : Mixed b a := by
  cases h <;> constructor

theorem Mixed.equals_iff (h : Mixed a b) :
    a.equals b = true ↔ ∃ r, a.rank? = some r ∧ b.rank? = some r := by
  cases h <;> exact float_beq_iff_floatRank?

theorem Mixed.order_eq_ok_iff (h : Mixed a b) :
    a.order b = .ok o ↔ ∃ r s, a.rank? = some r ∧ b.rank? = some s ∧ o.Compares r s := by
  cases h <;> exact orderFloats_iff_floatRank?

/-- The ways in which two values compare, or do not. -/
inductive Sides : Value → Value → Prop where
  | nulls : Sides null null
  | ints (m n : Int64) : Sides (int m) (int n)
  | strings (s t : String) : Sides (str s) (str t)
  | mixed {a b : Value} : Mixed a b → Sides a b
  | apart {a b : Value} :
      a.equals b = false → a.order b = .error (.cannotOrder a.kind b.kind) → Sides a b

theorem sides (a b : Value) : Sides a b := by
  cases a <;> cases b
  case null.null => exact .nulls
  case int.int => exact .ints ..
  case str.str => exact .strings ..
  case int.float => exact .mixed (.left ..)
  case float.int => exact .mixed (.right ..)
  case float.float => exact .mixed (.floats ..)
  all_goals exact .apart rfl rfl

theorem equals_eq_true_iff : a.equals b = true ↔ Equal a b := by
  constructor
  · intro h
    cases sides a b with
    | nulls => exact .null
    | ints m n =>
      obtain rfl : m = n := beq_iff_eq.1 h
      exact .int m
    | strings s t =>
      obtain rfl : s = t := beq_iff_eq.1 h
      exact .str s
    | mixed mixed =>
      obtain ⟨r, left, right⟩ := mixed.equals_iff.1 h
      exact .mixed mixed left right
    | apart unequal => exact absurd h (Bool.eq_false_iff.1 unequal)
  · intro h
    cases h with
    | null => rfl
    | int n => exact beq_self_eq_true n
    | str s => exact beq_self_eq_true s
    | mixed mixed left right => exact mixed.equals_iff.2 ⟨_, left, right⟩

theorem order_eq_ok_iff : a.order b = .ok o ↔ Ordered a b o := by
  constructor
  · intro h
    cases sides a b with
    | nulls => cases h
    | ints m n =>
      cases h
      exact .ints m n
    | strings s t =>
      cases h
      exact .strings s t
    | mixed mixed =>
      obtain ⟨r, s, left, right, compares⟩ := mixed.order_eq_ok_iff.1 h
      exact .mixed mixed left right compares
    | apart _ none =>
      rw [none] at h
      cases h
  · intro h
    cases h with
    | ints => rfl
    | strings => rfl
    | mixed mixed left right compares =>
      exact mixed.order_eq_ok_iff.2 ⟨_, _, left, right, compares⟩

theorem Equal.symm (h : Equal a b) : Equal b a := by
  cases h with
  | null => exact .null
  | int n => exact .int n
  | str s => exact .str s
  | mixed mixed left right => exact .mixed mixed.symm right left

theorem Ordered.swap (h : Ordered a b o) : Ordered b a o.swap := by
  cases h with
  | ints m n => exact Std.OrientedOrd.eq_swap (a := n) ▸ .ints n m
  | strings s t => exact Std.OrientedOrd.eq_swap (a := t) ▸ .strings t s
  | mixed mixed left right compares =>
    exact .mixed mixed.symm right left (Ordering.compares_swap.2 compares)

theorem Ordered.eq_iff (h : Ordered a b o) : o = .eq ↔ a.equals b = true := by
  cases h with
  | ints => exact Std.compare_eq_iff_eq.trans beq_iff_eq.symm
  | strings => exact Std.compare_eq_iff_eq.trans beq_iff_eq.symm
  | mixed mixed left right compares =>
    rw [compares.eq_eq, mixed.equals_iff, left, right]
    constructor
    · rintro rfl
      exact ⟨_, rfl, rfl⟩
    · rintro ⟨r, hr, hs⟩
      exact (Option.some.inj hr).trans (Option.some.inj hs).symm

theorem Mixed.trans (h : Mixed a b) (h' : Mixed b c) :
    Mixed a c ∨ ∃ m x n, a = .int m ∧ b = .float x ∧ c = .int n := by
  cases h with
  | left m x =>
    cases h' with
    | right _ n => exact .inr ⟨m, x, n, rfl, rfl, rfl⟩
    | floats => exact .inl (.left ..)
  | right =>
    cases h'
    exact .inl (.floats ..)
  | floats =>
    cases h' with
    | right => exact .inl (.right ..)
    | floats => exact .inl (.floats ..)

theorem Equal.trans (h : Equal a b) (h' : Equal b c) :
    Equal a c ∨ ∃ m x n, a = .int m ∧ b = .float x ∧ c = .int n := by
  cases h with
  | null | int | str => exact .inl h'
  | mixed mixed left right =>
    cases h' with
    | null | str => cases mixed
    | int => exact .inl (.mixed mixed left right)
    | mixed mixed' left' right' =>
      refine (mixed.trans mixed').imp_left fun mixed => .mixed mixed left ?_
      rw [right', ← left', right]

/-- The values that are less or equal. -/
inductive Le : Value → Value → Prop where
  | ints {m n : Int64} : m ≤ n → Le (int m) (int n)
  | strings {s t : String} : (compare s t).isLE → Le (str s) (str t)
  | mixed {a b : Value} {r s : Rank} :
      Mixed a b → a.rank? = some r → b.rank? = some s → r ≤ s → Le a b

theorem Ordered.le (h : Ordered a b o) (hne : o ≠ .gt) : Le a b := by
  cases h with
  | ints => exact .ints (Std.isLE_compare.1 (Ordering.isLE_iff_ne_gt.2 hne))
  | strings => exact .strings (Ordering.isLE_iff_ne_gt.2 hne)
  | mixed mixed left right compares => exact .mixed mixed left right (compares.ne_gt.1 hne)

theorem Le.ordered (h : Le a b) : ∃ o, Ordered a b o ∧ o ≠ .gt := by
  cases h with
  | ints hle => exact ⟨_, .ints .., Ordering.isLE_iff_ne_gt.1 (Std.isLE_compare.2 hle)⟩
  | strings hle => exact ⟨_, .strings .., Ordering.isLE_iff_ne_gt.1 hle⟩
  | mixed mixed left right hle =>
    exact ⟨_, .mixed mixed left right ((compare_iff ..).1 rfl), compare_le_iff_le.2 hle⟩

theorem holds_le_eq_ok_iff {v : Bool} :
    CompareOp.le.holds a b = .ok v ↔ ∃ o, Ordered a b o ∧ (o != .gt) = v := by
  simp only [CompareOp.holds, ← order_eq_ok_iff]
  cases a.order b with
  | error => simp [Except.map]
  | ok o => simp [Except.map]

theorem holds_le_iff : CompareOp.le.holds a b = .ok true ↔ Le a b := by
  rw [holds_le_eq_ok_iff]
  constructor
  · rintro ⟨o, ordered, hne⟩
    exact ordered.le (bne_iff_ne.1 hne)
  · intro h
    obtain ⟨o, ordered, hne⟩ := h.ordered
    exact ⟨o, ordered, bne_iff_ne.2 hne⟩

theorem Le.trans (h : Le a b) (h' : Le b c) :
    Le a c ∨ ∃ m x n, a = .int m ∧ b = .float x ∧ c = .int n := by
  cases h with
  | @ints m n hmn =>
    cases h' with
    | ints hnk => exact .inl (.ints (Int64.le_trans hmn hnk))
    | mixed mixed left right hle =>
      cases mixed
      rw [rank?_int] at left
      cases left
      exact .inl (.mixed (.left ..) (rank?_int m) right ((rank_widen_mono hmn).trans hle))
  | strings hst =>
    cases h' with
    | strings htu => exact .inl (.strings (Std.TransOrd.isLE_trans hst htu))
    | mixed mixed => cases mixed
  | mixed mixed left right hle =>
    cases h' with
    | @ints m n hmn =>
      cases mixed
      rw [rank?_int] at right
      cases right
      exact .inl (.mixed (.right ..) left (rank?_int n) (hle.trans (rank_widen_mono hmn)))
    | strings => cases mixed
    | mixed mixed' left' right' hle' =>
      obtain rfl := Option.some.inj (right.symm.trans left')
      exact (mixed.trans mixed').imp_left fun mixed => .mixed mixed left right' (hle.trans hle')

theorem Equal.rank_widen (left : Equal (.int m) (.float x)) (right : Equal (.float x) (.int n)) :
    rank (widen m) = rank (widen n) := by
  cases left with
  | mixed _ hm hx =>
    cases right with
    | mixed _ hx' hn =>
      rw [rank?_int] at hm hn
      obtain rfl := Option.some.inj (hx.symm.trans hx')
      exact (Option.some.inj hm).trans (Option.some.inj hn).symm

theorem Equal.large (left : Equal (.int m) (.float x)) (right : Equal (.float x) (.int n))
    (hne : m ≠ n) : 2 ^ 53 < m.toInt.natAbs ∨ 2 ^ 53 < n.toInt.natAbs := by
  by_contra! h
  exact hne (rank_widen_inj (left.rank_widen right) h.1 h.2)

/-- Integers that are compared with a number in the wrong order equal the number. -/
theorem Le.equal (left : Le (.int m) (.float x)) (right : Le (.float x) (.int n)) (hlt : n < m) :
    Equal (.int m) (.float x) ∧ Equal (.float x) (.int n) := by
  cases left with
  | mixed _ hm hx hle =>
    cases right with
    | mixed _ hx' hn hle' =>
      have back : rank (widen n) ≤ rank (widen m) := rank_widen_mono (Int64.le_of_lt hlt)
      obtain rfl := Option.some.inj (hx.symm.trans hx')
      obtain rfl := Option.some.inj ((rank?_int m).symm.trans hm)
      obtain rfl := Option.some.inj ((rank?_int n).symm.trans hn)
      refine ⟨.mixed (.left ..) hm ?_, .mixed (.right ..) ?_ hn⟩
      · rw [hx, hle.antisymm (hle'.trans back)]
      · rw [hx, hle'.antisymm (back.trans hle)]

theorem equals_comm (a b : Value) : a.equals b = b.equals a := by
  rw [Bool.eq_iff_iff, equals_eq_true_iff, equals_eq_true_iff]
  exact ⟨Equal.symm, Equal.symm⟩

theorem order_swap : a.order b = .ok o ↔ b.order a = .ok o.swap := by
  rw [order_eq_ok_iff, order_eq_ok_iff]
  exact ⟨Ordered.swap, fun h => o.swap_swap ▸ h.swap⟩

theorem equals_of_equal (hab : Equal a b) (hbc : Equal b c) :
    a.equals c = false ↔ ∃ m x n, a = .int m ∧ b = .float x ∧ c = .int n ∧ m ≠ n := by
  constructor
  · intro h
    rcases hab.trans hbc with hac | ⟨m, x, n, rfl, rfl, rfl⟩
    · rw [equals_eq_true_iff.2 hac] at h
      cases h
    · exact ⟨m, x, n, rfl, rfl, rfl, beq_eq_false_iff_ne.1 h⟩
  · rintro ⟨m, x, n, rfl, rfl, rfl, hne⟩
    exact beq_eq_false_iff_ne.2 hne

theorem holds_of_le (hab : Le a b) (hbc : Le b c) : ∃ v, CompareOp.le.holds a c = .ok v ∧
    (v = false ↔ ∃ m x n, a = .int m ∧ b = .float x ∧ c = .int n ∧ n < m) := by
  rcases hab.trans hbc with hac | ⟨m, x, n, rfl, rfl, rfl⟩
  · refine ⟨true, holds_le_iff.2 hac, ?_⟩
    constructor
    · exact fun h => Bool.noConfusion h
    · rintro ⟨m, x, n, rfl, -, rfl, hlt⟩
      cases hac with
      | ints hle => exact absurd hlt (Int64.not_lt.2 hle)
      | mixed mixed => cases mixed
  · refine ⟨compare m n != .gt, rfl, ?_⟩
    rw [bne_eq_false_iff_eq, Std.compare_eq_gt]
    constructor
    · exact fun hlt => ⟨m, x, n, rfl, rfl, rfl, hlt⟩
    · rintro ⟨_, _, _, ⟨⟩, -, ⟨⟩, hlt⟩
      exact hlt

/-- Two integers that are equal to the same floating-point number need not be equal, and one that is
less or equal to the number need not be less or equal to one that the number is less or equal to. -/
theorem comparison_not_transitive :
    (int 9007199254740993).equals (float 9007199254740992) = true ∧
      (float 9007199254740992).equals (int 9007199254740992) = true ∧
      (int 9007199254740993).equals (int 9007199254740992) = false ∧
      CompareOp.le.holds (int 9007199254740993) (float 9007199254740992) = .ok true ∧
      CompareOp.le.holds (float 9007199254740992) (int 9007199254740992) = .ok true ∧
      CompareOp.le.holds (int 9007199254740993) (int 9007199254740992) = .ok false := by
  decide

/-- Comparison is a total preorder on the values that have an order, but for two different integers
that equal the same floating-point number. -/
theorem comparison_laws :
    (∀ a b : Value, a.equals b = b.equals a) ∧
    (∀ (a b : Value) (o : Ordering), a.order b = .ok o ↔ b.order a = .ok o.swap) ∧
    (∀ (a b : Value) (o : Ordering), a.order b = .ok o → (o = .eq ↔ a.equals b = true)) ∧
    (∀ a b c : Value, a.equals b = true → b.equals c = true →
      (a.equals c = false ↔ ∃ m x n, a = .int m ∧ b = .float x ∧ c = .int n ∧ m ≠ n)) ∧
    (∀ a b c : Value, CompareOp.le.holds a b = .ok true → CompareOp.le.holds b c = .ok true →
      ∃ v, CompareOp.le.holds a c = .ok v ∧
        (v = false ↔ ∃ m x n, a = .int m ∧ b = .float x ∧ c = .int n ∧ n < m)) ∧
    (∀ (m n : Int64) (x : Float), CompareOp.le.holds (.int m) (.float x) = .ok true →
      CompareOp.le.holds (.float x) (.int n) = .ok true → n < m →
        (int m).equals (.float x) = true ∧ (float x).equals (.int n) = true) ∧
    (∀ (m n : Int64) (x : Float), (int m).equals (.float x) = true →
      (float x).equals (.int n) = true → m ≠ n →
        2 ^ 53 < m.toInt.natAbs ∨ 2 ^ 53 < n.toInt.natAbs) := by
  -- Integers, strings and mixed numbers compare in three ways, each of which is a preorder.
  simp only [holds_le_iff]
  refine ⟨equals_comm, fun _ _ _ => order_swap, ?order_eq, ?equal, ?le, ?wrong, ?large⟩
  case order_eq =>
    intro a b o h
    exact (order_eq_ok_iff.1 h).eq_iff
  case equal =>
    intro a b c hab hbc
    exact equals_of_equal (equals_eq_true_iff.1 hab) (equals_eq_true_iff.1 hbc)
  case le =>
    intro a b c hab hbc
    exact holds_of_le hab hbc
  case wrong =>
    intro m n x left right hlt
    rw [equals_eq_true_iff, equals_eq_true_iff]
    exact left.equal right hlt
  case large =>
    intro m n x left right hne
    exact (equals_eq_true_iff.1 left).large (equals_eq_true_iff.1 right) hne

end Value

end BlueCode
