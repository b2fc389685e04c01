import JsonTemplate.Execution.Leaf
import JsonTemplate.Proofs.Number.DecimalText
import JsonTemplate.Proofs.Plugin.Ordering

namespace JsonTemplate

open JsonTemplate.Json JsonTemplate.Number JsonTemplate.Text

namespace Node

theorem ofDouble_finite {x : Float} (h : Double.isFinite x = true) :
    ofDouble x =
      .value (.number
        (if Double.truncate (Double.value x) = Double.value x ∧
            (Double.truncate (Double.value x)).natAbs < 0x20000000000000 then
          .int (Double.truncate (Double.value x))
        else .double x)) := by
  rcases Double.parts_cases x with ⟨shape, -⟩ | ⟨shape, -⟩ | ⟨s, m, e, shape, canonical⟩
  · rw [Double.isFinite, shape] at h
    cases h
  · rw [Double.isFinite, shape] at h
    cases h
  · have integral := Double.integral_iff canonical
    simp only [ofDouble, shape, Double.truncParts_eq canonical, Bool.and_eq_true, integral,
      decide_eq_true_eq]
    split <;> rfl

theorem ofDouble_ofInt {n : ℤ} (h : n.natAbs ≤ 0x10000000000000000) :
    ofDouble (Double.ofInt n) =
      .value (.number (if n.natAbs < 0x20000000000000 then .int n else .double (Double.ofInt n))) := by
  rw [ofDouble_finite (Double.isFinite_ofInt h)]
  rcases Nat.lt_or_ge n.natAbs 0x20000000000000 with small | large
  · have exact' := Double.value_ofInt small
    simp only [exact', Double.truncate_intCast, small, and_self, if_true]
  · have rounded := Double.le_truncate_ofInt large h
    rw [if_neg fun small => small.2.not_ge rounded, if_neg large.not_gt]

end Node

def remainderText (n m : ℤ) : String :=
  if (n.tmod m).natAbs < 0x20000000000000 then toString (n.tmod m)
  else formatNumber (Double.ofInt (n.tmod m))

namespace Context

/-- What a test of parity with the given arguments tests is an integer. -/
def TestsParity (ctx : Context) (args : Arguments) (n : ℤ) : Prop :=
  (if args.count = 1 then Operand.nodeAt ctx.resolve args 0 else ctx.node) =
    .value (.number (.int n))

/-- What a test of divisibility with the given arguments divides are two integers. -/
def TestsDivision (ctx : Context) (args : Arguments) (n m : ℤ) : Prop :=
  (if args.count = 2 then (Operand.nodeAt ctx.resolve args 0, Operand.nodeAt ctx.resolve args 1)
    else (ctx.node, Operand.nodeAt ctx.resolve args 0)) =
    (.value (.number (.int n)), .value (.number (.int m)))

variable {ctx counted : Context} {args : Arguments} {name : VarName} {n m : ℤ}

theorem hasParity_eq (tests : ctx.TestsParity args n) (remainder : ℤ) :
    CorePredicate.hasParity remainder ctx.resolve args = (Double.saturate n % 2 == remainder) := by
  have node : (if args.count = 1 then Operand.nodeAt ctx.resolve args 0
      else ctx.resolve .current) = .value (.number (.int n)) := tests
  simp only [CorePredicate.hasParity, node, Node.isInteger, Bool.true_and]
  rfl

theorem passes_even (tests : ctx.TestsParity args n) (hn : Json.Num.IsJson (.int n)) :
    ctx.Passes "even?" args ↔ Even n ∧ n ≤ Double.greatestInt64 := by
  obtain ⟨least, -⟩ := hn
  have parity : CorePredicate.even.holds ctx.resolve args = (Double.saturate n % 2 == 0) :=
    hasParity_eq tests 0
  refine (passes_iff .even).trans ?_
  rw [parity, beq_iff_eq, Int.even_iff, Double.saturate]
  rw [Double.leastInt64] at least ⊢
  rw [Double.greatestInt64]
  omega

theorem passes_odd (tests : ctx.TestsParity args n) (hn : Json.Num.IsJson (.int n)) :
    ctx.Passes "odd?" args ↔ Odd n ∨ Double.greatestInt64 < n := by
  obtain ⟨least, -⟩ := hn
  have parity : CorePredicate.odd.holds ctx.resolve args = (Double.saturate n % 2 == 1) :=
    hasParity_eq tests 1
  refine (passes_iff .odd).trans ?_
  rw [parity, beq_iff_eq, Int.odd_iff, Double.saturate]
  rw [Double.leastInt64] at least ⊢
  rw [Double.greatestInt64]
  omega

theorem divides_iff (hn : Json.Num.IsJson (.int n)) (some' : m ≠ 0) :
    CorePredicate.divides (.value (.number (.int m))) (.value (.number (.int n))) = true ↔
      Double.saturate m ∣ Double.saturate n ∧ ¬(n = Double.leastInt64 ∧ m = -1) := by
  obtain ⟨least, -⟩ := hn
  have divisor : Double.saturate m ≠ 0 := by
    rw [Double.saturate, Double.leastInt64, Double.greatestInt64]
    omega
  have overflow : Double.saturate n = Double.leastInt64 ∧ Double.saturate m = -1 ↔
      n = Double.leastInt64 ∧ m = -1 := by
    rw [Double.saturate, Double.saturate]
    rw [Double.leastInt64] at least ⊢
    rw [Double.greatestInt64]
    omega
  have unfolded : CorePredicate.divides (.value (.number (.int m))) (.value (.number (.int n))) =
      (Double.saturate m != 0 &&
        !(Double.saturate n == Double.leastInt64 && Double.saturate m == -1) &&
        (Double.saturate n).tmod (Double.saturate m) == 0) := rfl
  rw [unfolded, Bool.and_eq_true, Bool.and_eq_true, Bool.not_eq_true', ← Bool.not_eq_true,
    Bool.and_eq_true, beq_iff_eq, beq_iff_eq, beq_iff_eq, bne_iff_ne, overflow,
    and_iff_right divisor, and_comm, Int.dvd_iff_tmod_eq_zero]

theorem passes_nth (tests : ctx.TestsDivision args n m) (hn : Json.Num.IsJson (.int n))
    (some' : m ≠ 0) :
    ctx.Passes "nth?" args ↔
      Double.saturate m ∣ Double.saturate n ∧ ¬(n = Double.leastInt64 ∧ m = -1) := by
  have division : CorePredicate.nth.holds ctx.resolve args =
      CorePredicate.divides (.value (.number (.int m))) (.value (.number (.int n))) := by
    rw [TestsDivision] at tests
    rw [CorePredicate.holds]
    split at tests
    · rename_i two
      obtain ⟨dividend, divisor⟩ := Prod.mk.inj tests
      rw [if_pos two, dividend, divisor]
    · rename_i other
      obtain ⟨dividend, divisor⟩ := Prod.mk.inj tests
      rw [if_neg other, divisor]
      exact congrArg _ dividend
  rw [← divides_iff hn some', ← division]
  exact passes_iff .nth

theorem natAbs_tmod_le (n m : ℤ) : (n.tmod m).natAbs ≤ n.natAbs := by
  rw [Int.natAbs_tmod]
  exact Nat.mod_le _ _

theorem compute_mod (hn : Json.Num.FitsInt64 (.int n)) (hm : Json.Num.FitsInt64 (.int m))
    (some' : m ≠ 0) (given : args.get? 0 = some (toString m)) :
    CoreFormatter.mod.compute ctx.resolve args (.value (.number (.int n))) =
      .ok (.ofDouble (Double.ofInt (n.tmod m))) := by
  rw [Json.Num.fitsInt64_int] at hn hm
  have divisor : ((args.get? 0).bind fun raw => readInt64? raw.toList).getD 2 = m := by
    rw [given, Option.bind_some, readInt64?_toString hm.1 hm.2, Option.getD_some]
  have dividend : Node.asInt64 (.value (.number (.int n))) = n := Double.saturate_eq hn.1 hn.2
  rw [CoreFormatter.compute, CoreFormatter.modulo]
  simp only [divisor, dividend, some', if_false]

theorem emit_remainder (hn : Json.Num.FitsInt64 (.int n)) :
    (Node.ofDouble (Double.ofInt (n.tmod m))).emit = remainderText n m := by
  rw [Json.Num.fitsInt64_int, Double.leastInt64, Double.greatestInt64] at hn
  have bound := natAbs_tmod_le n m
  rw [Node.ofDouble_ofInt (by omega), remainderText]
  split <;> rfl

theorem prints_remainder {nested : Nested} (hn : Json.Num.FitsInt64 (.int n))
    (hm : Json.Num.FitsInt64 (.int m)) (some' : m ≠ 0)
    (bound : ctx.resolve name = .value (.number (.int n)))
    (given : args.get? 0 = some (toString m))
    (goes : Step.count (ctx.enter (.value (.number (.int n)))) = (.ok (), counted)) :
    Step.runOutput Catalog.core nested [name] [⟨"mod", args⟩] ctx =
      (.ok (), (counted.write (remainderText n m)).pop) := by
  have known : (Catalog.core.formatter? "mod").map Formatter.transform =
      some (.compute CoreFormatter.mod.compute) := rfl
  have formatted : Step.applyFormatters Catalog.core nested [⟨"mod", args⟩]
      [(name, .value (.number (.int n)))] (ctx.enter (.value (.number (.int n)))) =
        (.ok [(name, .ofDouble (Double.ofInt (n.tmod m)))], counted) := by
    simp only [Step.applyFormatters, Step.applyFormatter, known, bind, Step.andThen, goes, Step.read,
      Variables.first, compute_mod hn hm some' given]
    rfl
  have vars : Step.resolveAll [name] ctx = (.ok [(name, .value (.number (.int n)))], ctx) := by
    simp only [Step.resolveAll, Step.read, List.map_cons, List.map_nil, bound]
  simp only [Step.runOutput, Step.within, bind, Step.andThen, vars, Step.modify, Variables.first,
    formatted, emit_remainder hn]
  rfl

structure Divided (n m : ℤ) : Prop where
  even : ∀ (ctx : Context) (args : Arguments), ctx.TestsParity args n →
    (ctx.Passes "even?" args ↔ Even n ∧ n ≤ Double.greatestInt64)
  odd : ∀ (ctx : Context) (args : Arguments), ctx.TestsParity args n →
    (ctx.Passes "odd?" args ↔ Odd n ∨ Double.greatestInt64 < n)
  nth : ∀ (ctx : Context) (args : Arguments), ctx.TestsDivision args n m →
    (ctx.Passes "nth?" args ↔
      Double.saturate m ∣ Double.saturate n ∧ ¬(n = Double.leastInt64 ∧ m = -1))
  mod : Json.Num.FitsInt64 (.int n) → Json.Num.FitsInt64 (.int m) →
    ∀ (nested : Nested) (ctx counted : Context) (name : VarName) (args : Arguments),
      ctx.resolve name = .value (.number (.int n)) → args.get? 0 = some (toString m) →
      Step.count (ctx.enter (.value (.number (.int n)))) = (.ok (), counted) →
        Step.runOutput Catalog.core nested [name] [⟨"mod", args⟩] ctx =
          (.ok (), (counted.write (remainderText n m)).pop)

theorem integers_divided (hn : Json.Num.IsJson (.int n)) (some' : m ≠ 0) : Divided n m where
  even _ _ tests := passes_even tests hn
  odd _ _ tests := passes_odd tests hn
  nth _ _ tests := passes_nth tests hn some'
  mod fits fits' _ _ _ _ _ bound given goes := prints_remainder fits fits' some' bound given goes

def ofIntegers (n m : ℤ) : Context :=
  .start .strict none (.value (.object [("n", .int n), ("m", .int m)]))

theorem ofIntegers_first (n m : ℤ) :
    Operand.nodeAt (ofIntegers n m).resolve (.parse " n".toList) 0 = .value (.number (.int n)) :=
  Operand.nodeAt_variable _ _ 0 "n" rfl rfl (by decide +kernel)

theorem ofIntegers_testsParity (n m : ℤ) :
    (ofIntegers n m).TestsParity (.parse " n".toList) n :=
  ofIntegers_first n m

theorem ofIntegers_testsDivision (n m : ℤ) :
    (ofIntegers n m).TestsDivision (.parse " n m".toList) n m := by
  have left := Operand.nodeAt_variable (ofIntegers n m).resolve (.parse " n m".toList) 0 "n" rfl
    rfl (by decide +kernel)
  have right := Operand.nodeAt_variable (ofIntegers n m).resolve (.parse " n m".toList) 1 "m" rfl
    rfl (by decide +kernel)
  exact Prod.ext left right

def remainderOutput (divisor : String) (ctx : Context) : String :=
  (Step.runOutput Catalog.core (fun _ _ => Step.value ()) [.parse ['n']]
    [⟨"mod", ⟨' ', [divisor], true⟩⟩] ctx).2.output

theorem integers_divided_seven :
    (ofIntegers 7 3).Passes "odd?" (.parse " n".toList) ∧
      ¬(ofIntegers 7 3).Passes "nth?" (.parse " n m".toList) ∧
        remainderOutput "3" (ofIntegers 7 3) = "1" := by
  have divided : Divided 7 3 := integers_divided (by decide) (by decide)
  refine ⟨?_, ?_, ?_⟩
  · exact (divided.odd _ _ (ofIntegers_testsParity 7 3)).mpr (.inl (by decide))
  · rw [divided.nth _ _ (ofIntegers_testsDivision 7 3)]
    decide
  · have prints := divided.mod (Json.Num.fitsInt64_int.mpr (by decide))
      (Json.Num.fitsInt64_int.mpr (by decide)) (fun _ _ => Step.value ()) (ofIntegers 7 3)
      ((ofIntegers 7 3).enter (.value (.number (.int 7)))) (.parse ['n']) ⟨' ', ["3"], true⟩
      rfl (by decide) rfl
    rw [remainderOutput, prints]
    decide +kernel

/-- Beyond 64 bits integers are odd, the least integer is not divided by minus one, and a remainder
of more than 53 bits is rounded. -/
theorem integers_divided_inexact :
    (¬(ofIntegers 0x8000000000000000 1).Passes "even?" (.parse " n".toList) ∧
        Even (0x8000000000000000 : ℤ)) ∧
      (¬(ofIntegers (-0x8000000000000000) (-1)).Passes "nth?" (.parse " n m".toList) ∧
        (-1 : ℤ) ∣ -0x8000000000000000) ∧
      remainderOutput "9223372036854775807" (ofIntegers 0x20000000000001 1) ≠
        toString ((0x20000000000001 : ℤ).tmod 9223372036854775807) := by
  refine ⟨⟨?_, by decide⟩, ⟨?_, by decide⟩, ?_⟩
  · rw [passes_even (ofIntegers_testsParity _ _) (by decide)]
    decide
  · rw [passes_nth (ofIntegers_testsDivision _ _) (by decide) (by decide)]
    decide
  · decide +kernel

end Context

end JsonTemplate
