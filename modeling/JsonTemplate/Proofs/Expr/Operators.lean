import JsonTemplate.Expr.Reduce
import JsonTemplate.Proofs.Number.Comparison

namespace JsonTemplate.Expr

open JsonTemplate.Number JsonTemplate.Number.Double

theorem compareDoubles_eq (x y : Float) :
    compareDoubles x y = Option.map₂ cmp (point? x) (point? y) := by
  have swap : y.toModel.compare x.toModel = (x.toModel.compare y.toModel).map Ordering.swap := by
    rw [compare_eq, compare_eq]
    cases point? x <;> cases point? y <;> simp [cmp_swap]
  rw [← compare_eq, compareDoubles]
  simp only [lt_iff_compare, beq_iff_compare, swap]
  cases x.toModel.compare y.toModel with
  | none => rfl
  | some o => cases o <;> rfl

theorem compareValues_numbers {a b : ExprValue} (other : (a.isString && b.isString) = false) :
    compareValues a b = Option.map₂ cmp (point? a.toNumber) (point? b.toNumber) := by
  rw [← compareDoubles_eq]
  cases a <;> cases b <;> first | rfl | cases other

theorem compareValues_swap (a b : ExprValue) :
    compareValues b a = (compareValues a b).map Ordering.swap := by
  by_cases texts : (a.isString && b.isString) = true
  · obtain ⟨s, rfl⟩ : ∃ s, a = .string s := by cases a <;> simp_all [ExprValue.isString]
    obtain ⟨t, rfl⟩ : ∃ t, b = .string t := by cases b <;> simp_all [ExprValue.isString]
    exact congrArg some Std.OrientedOrd.eq_swap
  · have other := Bool.eq_false_iff.mpr texts
    rw [compareValues_numbers other, compareValues_numbers ((Bool.and_comm ..).trans other)]
    cases point? a.toNumber <;> cases point? b.toNumber <;> simp [cmp_swap]

theorem compareValues_beq_swap (a b : ExprValue) (o : Ordering) :
    (compareValues a b == some o) = (compareValues b a == some o.swap) := by
  rw [compareValues_swap b a]
  cases compareValues b a with
  | none => rfl
  | some p => cases p <;> cases o <;> rfl

theorem ok_bool {p q : Bool} (same : p = q) :
    (.ok (.bool p) : Except ReduceError ExprValue) = .ok (.bool q) := by
  rw [same]

section

variable (limit : Nat) (a b : ExprValue)

theorem greater_eq_less : binary limit .greater a b = binary limit .less b a :=
  ok_bool (compareValues_beq_swap a b .gt)

theorem greaterEqual_eq_lessEqual :
    binary limit .greaterEqual a b = binary limit .lessEqual b a :=
  ok_bool (congrArg₂ or (compareValues_beq_swap a b .gt) (compareValues_beq_swap a b .eq))

theorem equal_comm : binary limit .equal a b = binary limit .equal b a :=
  ok_bool (compareValues_beq_swap a b .eq)

theorem notEqual_eq_not :
    binary limit .notEqual a b = (binary limit .equal a b).map (unary .logicalNot) := rfl

theorem strictNotEqual_eq_not :
    binary limit .strictNotEqual a b = (binary limit .strictEqual a b).map (unary .logicalNot) :=
  rfl

end

section

variable {limit : Nat} {a b : ExprValue}

theorem compare_ordered {α : Type} [LinearOrder α] {p q : α}
    (order : compareValues a b = some (cmp p q)) :
    binary limit .less a b = .ok (.bool (p < q)) ∧
      binary limit .lessEqual a b = .ok (.bool (p ≤ q)) ∧
        binary limit .equal a b = .ok (.bool (p = q)) := by
  refine ⟨ok_bool ?_, ok_bool ?_, ok_bool ?_⟩
  · rw [order, Bool.eq_iff_iff, beq_iff_eq, Option.some_inj, cmp_eq_lt_iff, decide_eq_true_iff]
  · rw [order, Bool.eq_iff_iff, Bool.or_eq_true, beq_iff_eq, beq_iff_eq, Option.some_inj,
      Option.some_inj, cmp_eq_lt_iff, cmp_eq_eq_iff, decide_eq_true_iff, le_iff_lt_or_eq]
  · rw [order, Bool.eq_iff_iff, beq_iff_eq, Option.some_inj, cmp_eq_eq_iff, decide_eq_true_iff]

theorem compare_texts (s t : String) :
    binary limit .less (.string s) (.string t) = .ok (.bool (s < t)) ∧
      binary limit .lessEqual (.string s) (.string t) = .ok (.bool (s ≤ t)) ∧
        binary limit .equal (.string s) (.string t) = .ok (.bool (s = t)) :=
  compare_ordered (congrArg some (cmp_eq_compare s t).symm)

theorem compare_numbers (other : (a.isString && b.isString) = false) {p q : WithBotTop ℚ}
    (left : point? a.toNumber = some p) (right : point? b.toNumber = some q) :
    binary limit .less a b = .ok (.bool (p < q)) ∧
      binary limit .lessEqual a b = .ok (.bool (p ≤ q)) ∧
        binary limit .equal a b = .ok (.bool (p = q)) := by
  refine compare_ordered ?_
  rw [compareValues_numbers other, left, right]
  rfl

theorem compare_undefined (other : (a.isString && b.isString) = false)
    (undefined : point? a.toNumber = none ∨ point? b.toNumber = none) :
    binary limit .less a b = .ok (.bool false) ∧
      binary limit .lessEqual a b = .ok (.bool false) ∧
        binary limit .equal a b = .ok (.bool false) := by
  have order : compareValues a b = none := by
    rw [compareValues_numbers other]
    exact Option.map₂_eq_none_iff.mpr undefined
  refine ⟨ok_bool ?_, ok_bool ?_, ok_bool ?_⟩
  all_goals rw [order]; rfl

end

theorem strictEqual_texts (s t : String) : strictEqual (.string s) (.string t) = true ↔ s = t := by
  have same : strictEqual (.string s) (.string t) = (some (compare s t) == some .eq) := rfl
  rw [same, beq_iff_eq, Option.some_inj, compare_eq_iff_eq]

theorem strictEqual_bools (b c : Bool) : strictEqual (.bool b) (.bool c) = true ↔ b = c := by
  cases b <;> cases c <;> decide +kernel

theorem strictEqual_numbers (x y : Quantity) : strictEqual (.number x) (.number y) = true ↔
    ∃ p, point? x.toDouble = some p ∧ point? y.toDouble = some p := by
  have same : strictEqual (.number x) (.number y) =
      (compareValues (.number x) (.number y) == some .eq) := rfl
  rw [same, compareValues_numbers rfl, beq_iff_eq, Option.map₂_eq_some_iff]
  constructor
  · rintro ⟨p, q, left, right, same⟩
    cases (cmp_eq_eq_iff ..).mp same
    exact ⟨p, left, right⟩
  · rintro ⟨p, left, right⟩
    exact ⟨p, p, left, right, cmp_self_eq_eq p⟩

theorem strictEqual_iff (a b : ExprValue) : strictEqual a b = true ↔
    (∃ s, a = .string s ∧ b = .string s) ∨ (∃ c, a = .bool c ∧ b = .bool c) ∨
      (a = .null ∧ b = .null) ∨
        ∃ x y p, a = .number x ∧ b = .number y ∧ point? x.toDouble = some p ∧
          point? y.toDouble = some p := by
  constructor
  · intro equal
    cases a with
    | string s =>
      cases b with
      | string t => exact .inl ⟨s, rfl, ((strictEqual_texts s t).mp equal) ▸ rfl⟩
      | bool | number | null => cases equal
    | bool c =>
      cases b with
      | bool d => exact .inr (.inl ⟨c, rfl, ((strictEqual_bools c d).mp equal) ▸ rfl⟩)
      | string | number | null => cases equal
    | null =>
      cases b with
      | null => exact .inr (.inr (.inl ⟨rfl, rfl⟩))
      | string | number | bool => cases equal
    | number x =>
      cases b with
      | number y =>
        obtain ⟨p, left, right⟩ := (strictEqual_numbers x y).mp equal
        exact .inr (.inr (.inr ⟨x, y, p, rfl, rfl, left, right⟩))
      | string | bool | null => cases equal
  · rintro (⟨s, rfl, rfl⟩ | ⟨c, rfl, rfl⟩ | ⟨rfl, rfl⟩ | ⟨x, y, p, rfl, rfl, left, right⟩)
    · exact (strictEqual_texts s s).mpr rfl
    · exact (strictEqual_bools c c).mpr rfl
    · decide +kernel
    · exact (strictEqual_numbers x y).mpr ⟨p, left, right⟩

section

variable {limit : Nat} {a b : ExprValue} (text : (a.isString || b.isString) = true)

include text

theorem addValues_texts : addValues limit a b =
    if 0 < limit ∧ limit < a.toText.length + b.toText.length then .error (.stringTooLong limit)
    else .ok (.string (a.toText ++ b.toText)) :=
  if_pos text

theorem add_texts (fits : limit = 0 ∨ a.toText.length + b.toText.length ≤ limit) :
    binary limit .add a b = .ok (.string (a.toText ++ b.toText)) :=
  (addValues_texts text).trans (if_neg (by omega))

theorem add_tooLong (limited : limit ≠ 0) (long : limit < a.toText.length + b.toText.length) :
    binary limit .add a b = .error (.stringTooLong limit) :=
  (addValues_texts text).trans (if_pos ⟨Nat.pos_of_ne_zero limited, long⟩)

end

theorem add_numbers {a b : ExprValue} (other : (a.isString || b.isString) = false) (limit : Nat) :
    (binary limit .add a b).map ExprValue.toNumber = .ok (a.toNumber + b.toNumber) := by
  have sum : binary limit .add a b = .ok (.number (a.toQuantity + b.toQuantity)) :=
    if_neg (Bool.not_eq_true _ ▸ other)
  rw [sum]
  exact congrArg Except.ok (Quantity.toDouble_combine strict_add _ _)

theorem binary_arithmetic {o : Operator} {f : Float → Float → Float}
    (h : (o, f) ∈ [(.subtract, (· - ·)), (.multiply, (· * ·)), (.divide, (· / ·)),
      (.modulus, remainder)]) (limit : Nat) (a b : ExprValue) :
    (binary limit o a b).map ExprValue.toNumber = .ok (f a.toNumber b.toNumber) := by
  simp only [List.mem_cons, Prod.mk.injEq, List.not_mem_nil, or_false] at h
  rcases h with ⟨rfl, rfl⟩ | ⟨rfl, rfl⟩ | ⟨rfl, rfl⟩ | ⟨rfl, rfl⟩
  · exact congrArg Except.ok (Quantity.toDouble_combine strict_sub _ _)
  · exact congrArg Except.ok (Quantity.toDouble_combine strict_mul _ _)
  · exact congrArg Except.ok (Quantity.toDouble_combine strict_div _ _)
  · exact congrArg Except.ok (Quantity.toDouble_combine strict_remainder _ _)

theorem minus_toNumber (v : ExprValue) : (unary .minus v).toNumber = -v.toNumber :=
  Quantity.toDouble_neg _

theorem toInt_ofDouble {n : ℤ} (least : -0x80000000 ≤ n) (most : n < 0x80000000) :
    (ExprValue.ofDouble (ofInt n)).toInt = n := by
  have defined : ofInt n ≠ nan := (rounds_ofInt n).ne_nan
  rw [ExprValue.ofDouble, Quantity.ofDouble_eq defined]
  exact toInt32_ofInt least most

theorem toInt_onBits (f : BitVec 32 → BitVec 32 → BitVec 32) (a b : ExprValue) :
    (onBits f a b).toInt = (f (.ofInt 32 a.toInt) (.ofInt 32 b.toInt)).toInt :=
  toInt_ofDouble (BitVec.le_toInt _) (BitVec.toInt_lt)

theorem toInt_ofInt (v : ExprValue) : (BitVec.ofInt 32 v.toInt).toInt = v.toInt := by
  obtain ⟨least, most⟩ := toInt32_bounds v.toNumber
  exact BitVec.toInt_ofInt_eq_self (by decide) least most

theorem bitwiseNot_toInt (v : ExprValue) : (unary .bitwiseNot v).toInt = -v.toInt - 1 := by
  obtain ⟨least, most⟩ := toInt32_bounds v.toNumber
  change -0x80000000 ≤ v.toInt at least
  change v.toInt < 0x80000000 at most
  exact toInt_ofDouble (by omega) (by omega)

theorem bitwise_getLsbD {o : Operator} {f : Bool → Bool → Bool}
    (h : (o, f) ∈ [(.bitwiseAnd, and), (.bitwiseOr, or), (.bitwiseXor, xor)]) (limit : Nat)
    (a b : ExprValue) : ∃ v, binary limit o a b = .ok v ∧ ∀ i < 32,
      (BitVec.ofInt 32 v.toInt).getLsbD i =
        f ((BitVec.ofInt 32 a.toInt).getLsbD i) ((BitVec.ofInt 32 b.toInt).getLsbD i) := by
  simp only [List.mem_cons, Prod.mk.injEq, List.not_mem_nil, or_false] at h
  rcases h with ⟨rfl, rfl⟩ | ⟨rfl, rfl⟩ | ⟨rfl, rfl⟩
  · refine ⟨_, rfl, fun i _ => ?_⟩
    rw [toInt_onBits, BitVec.ofInt_toInt, BitVec.getLsbD_and]
  · refine ⟨_, rfl, fun i _ => ?_⟩
    rw [toInt_onBits, BitVec.ofInt_toInt, BitVec.getLsbD_or]
  · refine ⟨_, rfl, fun i _ => ?_⟩
    rw [toInt_onBits, BitVec.ofInt_toInt, BitVec.getLsbD_xor]

theorem shiftOf_ofInt (n : ℤ) : shiftOf (.ofInt 32 n) = (n % 32).toNat := by
  rw [shiftOf, BitVec.toNat_ofInt]
  omega

theorem shiftLeft_toInt (limit : Nat) (a b : ExprValue) :
    (binary limit .shiftLeft a b).map ExprValue.toInt =
      .ok ((a.toInt * 2 ^ (b.toInt % 32).toNat).bmod (2 ^ 32)) := by
  refine congrArg Except.ok ?_
  rw [toInt_onBits, shiftOf_ofInt, BitVec.toInt_shiftLeft, Nat.shiftLeft_eq, BitVec.toNat_ofInt]
  push_cast
  rw [Int.toNat_of_nonneg (Int.emod_nonneg _ (by decide))]
  exact Int.emod_mul_bmod ..

theorem shiftRight_toInt (limit : Nat) (a b : ExprValue) :
    (binary limit .shiftRight a b).map ExprValue.toInt =
      .ok (a.toInt / 2 ^ (b.toInt % 32).toNat) := by
  refine congrArg Except.ok ?_
  rw [toInt_onBits, shiftOf_ofInt, BitVec.toInt_sshiftRight, toInt_ofInt, Int.shiftRight_eq_div_pow]
  push_cast
  rfl

theorem point?_zero : point? 0 = some (WithBotTop.coe 0) := by
  have zero : (0 : Float) = roundTo 0 := by
    have whole := ofInt_eq_roundTo 0
    rw [Int.cast_zero] at whole
    rw [← whole]
    decide +kernel
  have finite : parts 0 = .finite false 0 leastExponent := by decide +kernel
  rw [point?, finite]
  simp only [zero, value_roundTo_zero]

theorem toBool_number (x : Quantity) :
    (ExprValue.number x).toBool = true ↔ ∃ p, point? x.toDouble = some p ∧ p ≠ (0 : ℚ) := by
  have self : (x.toDouble == x.toDouble) = true ↔ (point? x.toDouble).isSome = true := by
    rw [beq_iff_compare, compare_eq]
    cases point? x.toDouble with
    | none => exact iff_of_false nofun nofun
    | some p => exact iff_of_true (congrArg some (cmp_self_eq_eq p)) rfl
  have zero : (x.toDouble == 0) = true ↔ point? x.toDouble = some (WithBotTop.coe 0) := by
    rw [beq_iff_compare, compare_eq, point?_zero]
    cases point? x.toDouble with
    | none => exact iff_of_false nofun nofun
    | some p => simp [cmp_eq_eq_iff]
  rw [ExprValue.toBool, Node.truthyDouble, Bool.and_eq_true, self, bne, Bool.not_eq_true',
    ← Bool.not_eq_true, zero]
  cases point? x.toDouble with
  | none => exact iff_of_false (fun h => nomatch h.1) (fun ⟨_, h, _⟩ => nomatch h)
  | some p => simp

theorem logical_eq (limit : Nat) (a b : ExprValue) :
    binary limit .logicalAnd a b = .ok (.bool (a.toBool && b.toBool)) ∧
      binary limit .logicalOr a b = .ok (.bool (a.toBool || b.toBool)) ∧
        unary .logicalNot a = .bool !a.toBool :=
  ⟨rfl, rfl, rfl⟩

theorem Function.apply_eq_none {f : Function} {args : List ExprValue} :
    f.apply args = none ↔ args = [] := by
  cases args <;> cases f <;> simp [Function.apply, select]

theorem apply_abs (v : ExprValue) (rest : List ExprValue) :
    (Function.abs.apply (v :: rest)).map ExprValue.toNumber = some v.toNumber.abs :=
  congrArg some (Quantity.toDouble_abs _)

theorem Function.apply_first {f : Function} (h : f ≠ .max ∧ f ≠ .min) (v : ExprValue)
    (rest : List ExprValue) : f.apply (v :: rest) = f.apply [v] := by
  cases f with
  | max => exact absurd rfl h.1
  | min => exact absurd rfl h.2
  | abs | num | str | bool => rfl

section

variable {beats : Float → Float → Bool} {R : WithBotTop ℚ → WithBotTop ℚ → Prop}

def Decides (beats : Float → Float → Bool) (R : WithBotTop ℚ → WithBotTop ℚ → Prop) : Prop :=
  ∀ {x y p q}, point? x = some p → point? y = some q → (beats x y = true ↔ ¬R q p)

theorem Decides.exists_winner [Std.Total R] (decides : Decides beats R) {first next : ExprValue}
    (left : (point? first.toNumber).isSome = true) (right : (point? next.toNumber).isSome = true) :
    ∃ winner loser,
      (winner = first ∧ loser = next ∨ winner = next ∧ loser = first) ∧
        (if beats first.toNumber next.toNumber then first.toQuantity else next.toQuantity) =
            winner.toQuantity ∧
          ∃ p q, point? winner.toNumber = some p ∧ point? loser.toNumber = some q ∧ R p q := by
  obtain ⟨p, left⟩ := Option.isSome_iff_exists.mp left
  obtain ⟨q, right⟩ := Option.isSome_iff_exists.mp right
  by_cases ahead : beats first.toNumber next.toNumber = true
  · have better := (Std.Total.total (r := R) p q).resolve_right ((decides left right).mp ahead)
    exact ⟨first, next, .inl ⟨rfl, rfl⟩, if_pos ahead, p, q, left, right, better⟩
  · have better := not_not.mp (mt (decides left right).mpr ahead)
    exact ⟨next, first, .inr ⟨rfl, rfl⟩, if_neg ahead, q, p, right, left, better⟩

theorem Decides.select_best [IsTrans _ R] [Std.Total R] (decides : Decides beats R)
    {args : List ExprValue} (some' : args ≠ [])
    (defined : ∀ v ∈ args, (point? v.toNumber).isSome = true) :
    ∃ v ∈ args, select beats args = some (.number v.toQuantity) ∧
      ∀ w ∈ args, ∀ p q, point? v.toNumber = some p → point? w.toNumber = some q → R p q := by
  obtain ⟨first, rest, rfl⟩ := List.exists_cons_of_ne_nil some'
  rw [select]
  clear some'
  induction rest generalizing first with
  | nil =>
    refine ⟨first, List.mem_cons_self, rfl, fun w member p q left right => ?_⟩
    cases List.mem_singleton.mp member
    cases left.symm.trans right
    exact refl_of R p
  | cons next rest ih =>
    obtain ⟨winner, loser, pair, goes, a, b, winnerAt, loserAt, better⟩ :=
      decides.exists_winner (defined first (by simp)) (defined next (by simp))
    have same (w : ExprValue) : w ∈ first :: next :: rest ↔ w = loser ∨ w ∈ winner :: rest := by
      simp only [List.mem_cons]
      rcases pair with ⟨rfl, rfl⟩ | ⟨rfl, rfl⟩ <;> tauto
    obtain ⟨v, member, picked, best⟩ :=
      ih winner fun w among => defined w ((same w).mpr (.inr among))
    refine ⟨v, (same v).mpr (.inr member), ?_, fun w among p q left right => ?_⟩
    · rw [List.foldl_cons]
      exact (congrArg (fun start => some (ExprValue.number (rest.foldl _ start))) goes).trans picked
    · rcases (same w).mp among with rfl | among
      · cases loserAt.symm.trans right
        exact trans_of R (best winner List.mem_cons_self p a left winnerAt) better
      · exact best w among p q left right

end

section

variable {args : List ExprValue} (some' : args ≠ [])
  (defined : ∀ v ∈ args, (point? v.toNumber).isSome = true)

include some' defined

theorem apply_max : ∃ v ∈ args, Function.max.apply args = some (.number v.toQuantity) ∧
    ∀ w ∈ args, ∀ p q, point? v.toNumber = some p → point? w.toNumber = some q → q ≤ p := by
  have decides : Decides (fun x y => decide (y < x)) (· ≥ ·) := fun left right => by
    rw [decide_eq_true_iff, lt_iff_compare, compare_eq, left, right]
    simp [cmp_eq_lt_iff]
  exact decides.select_best some' defined

theorem apply_min : ∃ v ∈ args, Function.min.apply args = some (.number v.toQuantity) ∧
    ∀ w ∈ args, ∀ p q, point? v.toNumber = some p → point? w.toNumber = some q → p ≤ q := by
  have decides : Decides (fun x y => decide (x < y)) (· ≤ ·) := fun left right => by
    rw [decide_eq_true_iff, lt_iff_compare, compare_eq, left, right]
    simp [cmp_eq_lt_iff]
  exact decides.select_best some' defined

end

end JsonTemplate.Expr
