import JsonTemplate.Plugin.Core
import JsonTemplate.Proofs.Number.Order

namespace JsonTemplate

open JsonTemplate.Json JsonTemplate.Number

namespace Json.Num

/-- The exact value of a number. -/
def value : Json.Num → ℚ
  | int n => n
  | double x => Double.value x

def SameKind : Json.Num → Json.Num → Prop
  | int _, int _ => True
  | double _, double _ => True
  | _, _ => False

/-- The integer part of a number is a signed integer of 64 bits. -/
def FitsInt64 (n : Json.Num) : Prop :=
  Double.leastInt64 ≤ Double.truncate n.value ∧ Double.truncate n.value ≤ Double.greatestInt64

/-- Integers are compared as signed ones of 64 bits. -/
def Comparable (a b : Json.Num) : Prop :=
  match a with
  | int _ => a.FitsInt64 ∧ b.FitsInt64
  | double _ => True

/-- A number, taken for one of the kind of another number, is that other one. -/
def ReadsAs (b a : Json.Num) : Prop :=
  match a with
  | int m => Double.truncate b.value = m
  | double x => b.toDouble = x

def ZerosRise (a b : Json.Num) : Prop :=
  a = double Double.negativeZero ∧ b.toDouble = Double.roundTo 0 ∧ b.value = 0

def ZerosFall (a b : Json.Num) : Prop :=
  a = double (Double.roundTo 0) ∧ b.toDouble = Double.negativeZero ∧ b.value = 0

theorem fitsInt64_int {n : ℤ} :
    (int n).FitsInt64 ↔ Double.leastInt64 ≤ n ∧ n ≤ Double.greatestInt64 := by
  rw [FitsInt64, value, Double.truncate_intCast]

section

variable {a b : Json.Num}

theorem IsJson.rounds (h : a.IsJson) : Double.Rounds a.value a.toDouble := by
  cases a with
  | int n => exact Double.rounds_ofInt n
  | double x => exact Double.rounds_value h

theorem IsJson.toInt64_eq (h : a.IsJson) :
    a.toInt64 = Double.saturate (Double.truncate a.value) := by
  cases a with
  | int n =>
    rw [value, Double.truncate_intCast]
    rfl
  | double x => exact Double.toInt64_eq h

end

end Json.Num

namespace Number.Double

theorem saturate_lt {m n : ℤ} (h : saturate m < saturate n) : m < n := by
  rw [saturate, saturate] at h
  omega

theorem saturate_eq {n : ℤ} (least : leastInt64 ≤ n) (greatest : n ≤ greatestInt64) :
    saturate n = n := by
  rw [saturate]
  omega

end Number.Double

namespace Node

open Json.Num (ReadsAs ZerosRise ZerosFall)

variable {a b : Json.Num}

theorem order_int (n : ℤ) (hb : b.IsJson) :
    order (.value (.number (.int n))) (.value (.number b)) =
      compare (Double.saturate n) (Double.saturate (Double.truncate b.value)) := by
  rw [← hb.toInt64_eq]
  rfl

theorem order_double {x : Float} (ha : Json.Num.IsJson (.double x)) (hb : b.IsJson) :
    order (.value (.number (.double x))) (.value (.number b)) =
      compare (Double.orderKey x) (Double.orderKey b.toDouble) := by
  have left := Quantity.ofDouble_eq (Double.rounds_value ha).ne_nan
  have right := Quantity.ofDouble_eq hb.rounds.ne_nan
  rw [order, left, asQuantity, right]
  rfl

theorem order_lt_iff (ha : a.IsJson) (hb : b.IsJson) (fits : a.Comparable b) :
    order (.value (.number a)) (.value (.number b)) = .lt ↔
      a.value < b.value ∧ ¬b.ReadsAs a ∨ a.ZerosRise b := by
  cases a with
  | int n =>
    obtain ⟨left, least', greatest'⟩ := fits
    obtain ⟨least, greatest⟩ := Json.Num.fitsInt64_int.mp left
    rw [order_int n hb, compare_lt_iff_lt, Double.saturate_eq least greatest,
      Double.saturate_eq least' greatest', Double.lt_truncate_iff]
    exact (or_iff_left nofun).symm
  | double x =>
    rw [order_double ha hb, compare_lt_iff_lt, (Double.rounds_value ha).orderKey_lt_iff hb.rounds]
    refine or_congr (and_congr_right' ne_comm) ⟨?_, ?_⟩
    · rintro ⟨same, rfl, rounded⟩
      exact ⟨rfl, rounded, same.symm.trans Double.value_negativeZero⟩
    · rintro ⟨⟨⟩, rounded, zero⟩
      exact ⟨Double.value_negativeZero.trans zero.symm, rfl, rounded⟩

theorem order_gt_iff (ha : a.IsJson) (hb : b.IsJson) (fits : a.Comparable b) :
    order (.value (.number a)) (.value (.number b)) = .gt ↔
      b.value < a.value ∧ ¬b.ReadsAs a ∨ a.ZerosFall b := by
  cases a with
  | int n =>
    obtain ⟨left, least', greatest'⟩ := fits
    obtain ⟨least, greatest⟩ := Json.Num.fitsInt64_int.mp left
    rw [order_int n hb, compare_gt_iff_gt, Double.saturate_eq least greatest,
      Double.saturate_eq least' greatest', Double.truncate_lt_iff]
    exact (or_iff_left nofun).symm
  | double x =>
    rw [order_double ha hb, compare_gt_iff_gt, hb.rounds.orderKey_lt_iff (Double.rounds_value ha)]
    refine or_congr Iff.rfl ⟨?_, ?_⟩
    · rintro ⟨same, rounded, rfl⟩
      exact ⟨rfl, rounded, same.trans Double.value_roundTo_zero⟩
    · rintro ⟨⟨⟩, rounded, zero⟩
      exact ⟨zero.trans Double.value_roundTo_zero.symm, rounded, rfl⟩

theorem lt_of_order (ha : a.IsJson) (hb : b.IsJson)
    (h : order (.value (.number a)) (.value (.number b)) = .lt) :
    a.value < b.value ∨ a.ZerosRise b := by
  cases a with
  | int n =>
    rw [order_int n hb, compare_lt_iff_lt] at h
    exact .inl (Double.lt_truncate_iff.mp (Double.saturate_lt h)).1
  | double x => exact ((order_lt_iff ha hb trivial).mp h).imp_left And.left

theorem gt_of_order (ha : a.IsJson) (hb : b.IsJson)
    (h : order (.value (.number a)) (.value (.number b)) = .gt) :
    b.value < a.value ∨ a.ZerosFall b := by
  cases a with
  | int n =>
    rw [order_int n hb, compare_gt_iff_gt] at h
    exact .inl (Double.truncate_lt_iff.mp (Double.saturate_lt h)).1
  | double x => exact ((order_gt_iff ha hb trivial).mp h).imp_left And.left

theorem order_swap (ha : a.IsJson) (hb : b.IsJson) (same : a.SameKind b) :
    order (.value (.number b)) (.value (.number a)) =
      (order (.value (.number a)) (.value (.number b))).swap := by
  cases a with
  | int m =>
    cases b with
    | int n =>
      rw [order_int m hb, order_int n ha]
      simp only [Json.Num.value, Double.truncate_intCast]
      exact Std.OrientedOrd.eq_swap
    | double y => cases same
  | double x =>
    cases b with
    | int n => cases same
    | double y =>
      rw [order_double ha hb, order_double hb ha]
      exact Std.OrientedOrd.eq_swap

end Node

theorem Operand.nodeAt_variable (lookup : VarName → Node) (args : Arguments) (i : ℕ) (raw : String)
    (given : args.get? i = some raw) (plain : looksLikeJson raw.toList = false)
    (named : Pattern.variableName.matchLength raw.toList = some raw.toList.length) :
    nodeAt lookup args i = lookup (.parse raw.toList) := by
  have parsed : parse? raw.toList = some (.var (.parse raw.toList)) := by
    simp only [parse?, plain, named, if_true, Bool.false_eq_true, if_false]
  simp only [nodeAt, given, Option.bind_some, parsed, node]

namespace Context

/-- A core predicate holds in a context. -/
def Passes (ctx : Context) (name : String) (args : Arguments) : Prop :=
  (Catalog.core.test ⟨name, args⟩ ctx).1 = .ok true

/-- What a comparison with the given arguments compares are two numbers. -/
def Compares (ctx : Context) (args : Arguments) (a b : Json.Num) : Prop :=
  CorePredicate.pair ctx.resolve args = (.value (.number a), .value (.number b))

variable {ctx : Context} {args args' : Arguments} {a b : Json.Num}

theorem passes_iff (p : CorePredicate) :
    ctx.Passes p.name args ↔ p.holds ctx.resolve args = true := by
  have known : Catalog.core.predicate? p.name = some p.toPredicate := by
    cases p with
    | compare c => cases c <;> rfl
    | _ => rfl
  simp only [Passes, Catalog.test, known, CorePredicate.toPredicate, Except.ok.injEq]

theorem passes_compare (pair : ctx.Compares args a b) (c : Comparison) :
    ctx.Passes (CorePredicate.compare c).name args ↔
      c.holds (.value (.number a)) (.value (.number b)) = true := by
  rw [passes_iff, CorePredicate.holds, pair]

structure Ordered (ctx : Context) (args : Arguments) (a b : Json.Num) : Prop where
  atLeast : ctx.Passes "greaterThanOrEqual?" args ↔ ¬ctx.Passes "lessThan?" args
  atMost : ctx.Passes "lessThanOrEqual?" args ↔ ¬ctx.Passes "greaterThan?" args
  less_sound : ctx.Passes "lessThan?" args → a.value < b.value ∨ a.ZerosRise b
  greater_sound : ctx.Passes "greaterThan?" args → b.value < a.value ∨ a.ZerosFall b
  less : a.Comparable b →
    (ctx.Passes "lessThan?" args ↔ a.value < b.value ∧ ¬b.ReadsAs a ∨ a.ZerosRise b)
  greater : a.Comparable b →
    (ctx.Passes "greaterThan?" args ↔ b.value < a.value ∧ ¬b.ReadsAs a ∨ a.ZerosFall b)
  swap : a.SameKind b → ∀ args', ctx.Compares args' b a →
    (ctx.Passes "lessThan?" args ↔ ctx.Passes "greaterThan?" args')

theorem passes_less (pair : ctx.Compares args a b) :
    ctx.Passes "lessThan?" args ↔ Node.order (.value (.number a)) (.value (.number b)) = .lt :=
  (passes_compare pair .less).trans beq_iff_eq

theorem passes_greater (pair : ctx.Compares args a b) :
    ctx.Passes "greaterThan?" args ↔ Node.order (.value (.number a)) (.value (.number b)) = .gt :=
  (passes_compare pair .greater).trans beq_iff_eq

theorem compares_ordered (pair : ctx.Compares args a b) (ha : a.IsJson) (hb : b.IsJson) :
    ctx.Ordered args a b where
  atLeast := by
    rw [passes_less pair]
    exact (passes_compare pair .greaterOrEqual).trans bne_iff_ne
  atMost := by
    rw [passes_greater pair]
    exact (passes_compare pair .lessOrEqual).trans bne_iff_ne
  less_sound holds := Node.lt_of_order ha hb ((passes_less pair).mp holds)
  greater_sound holds := Node.gt_of_order ha hb ((passes_greater pair).mp holds)
  less fits := (passes_less pair).trans (Node.order_lt_iff ha hb fits)
  greater fits := (passes_greater pair).trans (Node.order_gt_iff ha hb fits)
  swap same args' pair' := by
    rw [passes_less pair, passes_greater pair', Node.order_swap ha hb same, Ordering.swap_eq_gt]

def oneAndHalf : Context :=
  .start .strict none
    (.value (.object [("a", .int 1), ("b", .double (Double.ofDecimal false 15 (-1)))]))

theorem oneAndHalf_compares :
    oneAndHalf.Compares (.parse " a b".toList) (.int 1)
      (.double (Double.ofDecimal false 15 (-1))) := by
  have left := Operand.nodeAt_variable oneAndHalf.resolve (.parse " a b".toList) 0 "a" rfl rfl
    (by decide +kernel)
  have right := Operand.nodeAt_variable oneAndHalf.resolve (.parse " a b".toList) 1 "b" rfl rfl
    (by decide +kernel)
  exact Prod.ext left right

theorem compares_ordered_oneAndHalf :
    oneAndHalf.Ordered (.parse " a b".toList) (.int 1) (.double (Double.ofDecimal false 15 (-1))) :=
  compares_ordered oneAndHalf_compares (by decide +kernel) (by decide +kernel)

/-- The fraction of the right number counts for nothing after an integer. -/
theorem lessThan_drops_fraction :
    ¬∀ (ctx : Context) (args : Arguments) (a b : Json.Num),
      ctx.Compares args a b → a.IsJson → b.IsJson →
        (ctx.Passes "lessThan?" args ↔ a.value < b.value) := by
  intro numeric
  have finite : Double.isFinite (Double.ofDecimal false 15 (-1)) = true := by decide +kernel
  have less : (1 : ℤ) < Double.value (Double.ofDecimal false 15 (-1)) := by
    have key : Double.orderKey (Double.ofInt 1) <
        Double.orderKey (Double.ofDecimal false 15 (-1)) := by decide +kernel
    rcases ((Double.rounds_ofInt 1).orderKey_lt_iff (Double.rounds_value finite)).mp key with
      ⟨less, -⟩ | ⟨-, zero, -⟩
    · exact less
    · exact absurd (congrArg Double.orderKey zero) (by decide +kernel)
  have passes := (numeric _ _ _ _ oneAndHalf_compares (by decide +kernel) finite).mpr less
  exact absurd ((passes_less oneAndHalf_compares).mp passes) (by decide +kernel)

end Context

end JsonTemplate
