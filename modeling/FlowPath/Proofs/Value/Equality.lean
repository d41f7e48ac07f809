import FlowPath.Value.Operators

/-!
# Equality and order of values

Equality across types is decided by coercing one of the two values at a time: a truth value becomes a number,
a list becomes its text. `compareOnce` is one such step, which settles the question or goes on with another
pair of values, and `ComparesTo` is what a run of these steps comes to. A step keeps the answer of
`looseEquals`, and there are fewer values left to coerce after it, so every run ends with that answer
(`comparesTo_iff`).

Both equalities are symmetric, and so are the two pairs of comparisons, since that holds of texts and of
doubles.
-/

namespace FlowPath

namespace Binary64

open Float.Model (UnpackedFloat)

/-- The order of two doubles the other way round. -/
theorem compare_swap (x y : UnpackedFloat) : y.compare x = (x.compare y).map Ordering.swap := by
  cases x with
  | notANumber => cases y <;> rfl
  | infinity s => cases y with
    | infinity t => cases s <;> cases t <;> rfl
    | _ => cases s <;> rfl
  | zero s => cases y with
    | infinity t => cases t <;> rfl
    | finite t m e hm => cases t <;> rfl
    | _ => rfl
  | finite s m e hm => cases y with
    | finite t n f hn =>
      have hthen : (compare f e).then (compare n m) = ((compare e f).then (compare m n)).swap := by
        rw [Ordering.swap_then, ← Std.OrientedCmp.eq_swap, ← Std.OrientedCmp.eq_swap]
      cases s with
      | negative => cases t with
        | negative => exact congrArg (some ·.swap) hthen
        | positive => rfl
      | positive => cases t with
        | negative => rfl
        | positive => exact congrArg some hthen
    | infinity t => cases s <;> cases t <;> rfl
    | _ => cases s <;> rfl

theorem beq_comm (x y : Float) : (x == y) = (y == x) := by
  have hbeq (x y : Float) : (x == y) = (x.toModel.unpack.compare y.toModel.unpack == some .eq) := rfl
  rw [hbeq, hbeq, compare_swap]
  rcases y.toModel.unpack.compare x.toModel.unpack with _ | ordering
  · rfl
  · cases ordering <;> rfl

end Binary64

namespace Value

/-! ## Coercions one at a time -/

/-- What comparing two values once comes to: an answer, or two values to compare instead. -/
inductive Comparison where
  | settled (equal : Bool)
  | instead (a b : Value)

/-- One step of equality across types. The cases are tried in this order. -/
def compareOnce : Value → Value → Comparison
  | .undefined, .undefined => .settled true
  | .undefined, _ => .settled false
  | _, .undefined => .settled false
  | .boolean x, b => .instead (.number (toNumber (.boolean x))) b
  | a, .boolean y => .instead a (.number (toNumber (.boolean y)))
  | .array _, .array _ => .settled false
  | .array xs, b => .instead (toPrimitive (.array xs)) b
  | a, .array ys => .instead a (toPrimitive (.array ys))
  | .number x, .string y => .settled (x == toNumber (.string y))
  | .string x, .number y => .settled (toNumber (.string x) == y)
  | a, b => .settled (strictEquals a b)

/-- Comparing the values step by step ends with the answer. -/
inductive ComparesTo : Value → Value → Bool → Prop where
  | settled {a b : Value} {equal : Bool} (h : compareOnce a b = .settled equal) : ComparesTo a b equal
  | instead {a b a' b' : Value} {equal : Bool} (h : compareOnce a b = .instead a' b')
      (rest : ComparesTo a' b' equal) : ComparesTo a b equal

/-- How often a value can be coerced. -/
def coercions : Value → Nat
  | .boolean _ | .array _ => 1
  | _ => 0

variable {a b a' b' : Value} {equal : Bool}

theorem looseEquals_of_settled (h : compareOnce a b = .settled equal) : looseEquals a b = equal := by
  cases a <;> cases b <;> cases h <;> rfl

theorem looseEquals_of_instead (h : compareOnce a b = .instead a' b') : looseEquals a b = looseEquals a' b' := by
  cases a <;> cases b <;> cases h <;> rfl

/-- A step that does not settle the question coerces one of the two values for good. -/
theorem coercions_lt_of_instead (h : compareOnce a b = .instead a' b') :
    coercions a' + coercions b' < coercions a + coercions b := by
  cases a <;> cases b <;> cases h <;> simp [coercions, toPrimitive]

theorem comparesTo_looseEquals (a b : Value) : ComparesTo a b (looseEquals a b) := by
  induction hcoercions : coercions a + coercions b using Nat.strongRecOn generalizing a b with
  | ind n ih =>
    subst hcoercions
    cases honce : compareOnce a b with
    | settled equal =>
      rw [looseEquals_of_settled honce]
      exact .settled honce
    | instead a' b' =>
      rw [looseEquals_of_instead honce]
      exact .instead honce (ih _ (coercions_lt_of_instead honce) a' b' rfl)

theorem ComparesTo.eq_looseEquals (h : ComparesTo a b equal) : equal = looseEquals a b := by
  induction h with
  | settled h => exact (looseEquals_of_settled h).symm
  | instead h _ ih => rw [ih, looseEquals_of_instead h]

/-- Comparing step by step ends, and it ends with the answer of `looseEquals`. -/
theorem comparesTo_iff : ComparesTo a b equal ↔ equal = looseEquals a b :=
  ⟨ComparesTo.eq_looseEquals, fun h => h ▸ comparesTo_looseEquals a b⟩

/-! ## Symmetry -/

theorem strictEquals_comm (a b : Value) : strictEquals a b = strictEquals b a := by
  cases a <;> cases b <;> simp only [strictEquals, Binary64.beq_comm, Bool.beq_comm]

theorem equalPrimitives_comm (a b : Value) : equalPrimitives a b = equalPrimitives b a := by
  cases a <;> cases b <;> simp only [equalPrimitives, strictEquals_comm, Binary64.beq_comm]

theorem looseEquals_comm (a b : Value) : looseEquals a b = looseEquals b a := by
  unfold looseEquals
  cases numberOfBoolean a <;> cases numberOfBoolean b <;>
    simp only [equalPrimitives_comm]

/-- A comparison with its operands exchanged is the opposite comparison, if that is so of texts and of
numbers. -/
theorem compareWith_swap {texts texts' : String → String → Bool} {numbers numbers' : Float → Float → Bool}
    (htexts : ∀ x y, texts x y = texts' y x) (hnumbers : ∀ x y, numbers x y = numbers' y x) (a b : Value) :
    compareWith texts numbers a b = compareWith texts' numbers' b a := by
  unfold compareWith
  cases a.toPrimitive <;> cases b.toPrimitive <;> simp only [htexts, hnumbers]

theorem less_swap (a b : Value) : less a b = greater b a :=
  compareWith_swap (fun _ _ => rfl) (fun _ _ => rfl) a b

theorem lessEqual_swap (a b : Value) : lessEqual a b = greaterEqual b a :=
  compareWith_swap (fun _ _ => rfl) (fun _ _ => rfl) a b

/-! ## Strict equality -/

theorem looseEquals_of_strictEquals (h : strictEquals a b = true) : looseEquals a b = true := by
  cases a with
  | undefined => cases b with
    | undefined => rfl
    | _ => cases h
  | boolean x => cases b with
    | boolean y =>
      obtain rfl : x = y := eq_of_beq h
      cases x <;> decide
    | _ => cases h
  | number x => cases b with
    | number y => exact h
    | _ => cases h
  | string x => cases b with
    | string y => exact h
    | _ => cases h
  | array xs => cases b <;> cases h

/-- The laws of equality and order, for values of any nesting. Comparing across types, one coercion after the
other, always ends, and with the answer of `looseEquals`. Both equalities are symmetric, `<` and `<=` are `>`
and `>=` with the operands exchanged, and values that are equal in the strict sense are equal across types. -/
theorem equality_and_order_symmetric (a b : Value) :
    (∀ equal, ComparesTo a b equal ↔ equal = looseEquals a b) ∧
    looseEquals a b = looseEquals b a ∧
    strictEquals a b = strictEquals b a ∧
    applyBinary .less a b = applyBinary .greater b a ∧
    applyBinary .lessEqual a b = applyBinary .greaterEqual b a ∧
    (strictEquals a b = true → looseEquals a b = true) :=
  ⟨fun _ => comparesTo_iff, looseEquals_comm a b, strictEquals_comm a b,
    congrArg Value.boolean (less_swap a b), congrArg Value.boolean (lessEqual_swap a b),
    looseEquals_of_strictEquals⟩

/-- A list of a list with a number in it and a truth value are equal across types, in either order, after two
coercions. Two equal texts are equal in both senses. -/
theorem equality_and_order_symmetric_nested :
    looseEquals (.array [.array [.number 1]]) (.boolean true) = true ∧
      ComparesTo (.boolean true) (.array [.array [.number 1]]) true ∧
      looseEquals (.string "a") (.string "a") = true := by
  have hnested : looseEquals (.array [.array [.number 1]]) (.boolean true) = true := by decide +kernel
  have hlaws := equality_and_order_symmetric (.array [.array [.number 1]]) (.boolean true)
  have hlaws' := equality_and_order_symmetric (.boolean true) (.array [.array [.number 1]])
  have htexts := equality_and_order_symmetric (.string "a") (.string "a")
  refine ⟨hnested, (hlaws'.1 true).mpr ?_, htexts.2.2.2.2.2 (by decide)⟩
  rw [← hlaws.2.1, hnested]

end Value

end FlowPath
