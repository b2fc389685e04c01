import JsonTemplate.Proofs.Number.Order

namespace JsonTemplate.Number.Double

open Float.Model (Format UnpackedFloat totalExponent)
open Float.Model.UnpackedFloat

theorem shiftRight_exact (m k : ℕ) :
    ExtendedMantissa.ofMantissaAndAccuracy (m * 2 ^ k) .exact >>> k =
      ExtendedMantissa.ofMantissaAndAccuracy m .exact := by
  induction k generalizing m with
  | zero => rw [pow_zero, mul_one]; rfl
  | succ k ih =>
    have twice : m * 2 ^ (k + 1) = m * 2 * 2 ^ k := by rw [pow_succ]; ring
    have last : ExtendedMantissa.ofMantissaAndAccuracy (m * 2 ^ (k + 1)) .exact >>> (k + 1) =
        (ExtendedMantissa.ofMantissaAndAccuracy (m * 2 ^ (k + 1)) .exact >>> k).shiftRightOne := rfl
    rw [last, twice, ih]
    simp [ExtendedMantissa.shiftRightOne, ExtendedMantissa.ofMantissaAndAccuracy]

/-- A mantissa of up to 53 bits at an exponent, as doubles have them. -/
structure Fits (m : ℕ) (e : ℤ) : Prop where
  positive : 0 < m
  below : m < 0x20000000000000
  least : leastExponent ≤ e
  full : e = leastExponent ∨ 0x10000000000000 ≤ m

section

variable {m : ℕ} {e : ℤ}

theorem log2_mul_two_pow (positive : 0 < m) (k : ℕ) : (m * 2 ^ k).log2 = m.log2 + k := by
  rw [Nat.log2_eq_iff (by positivity)]
  have lower := Nat.log2_self_le positive.ne'
  have upper : m < 2 ^ (m.log2 + 1) := Nat.lt_log2_self
  constructor
  · rw [pow_add]
    exact Nat.mul_le_mul_right _ lower
  · have shift : m.log2 + k + 1 = m.log2 + 1 + k := by omega
    rw [shift, pow_add]
    exact Nat.mul_lt_mul_of_pos_right upper (Nat.two_pow_pos k)

namespace Fits

theorem targetExponent_eq (h : Fits m e) (k : ℕ) :
    Format.binary64.targetExponent (totalExponent (m * 2 ^ k) (e - k)) = e := by
  obtain ⟨positive, below, least, full⟩ := h
  have upper : m.log2 < 53 := (Nat.log2_lt positive.ne').mpr below
  have lower : e = leastExponent ∨ 52 ≤ m.log2 :=
    full.imp_right fun full => (Nat.le_log2 positive.ne').mpr full
  rw [leastExponent] at least lower
  simp only [Format.targetExponent, totalExponent, log2_mul_two_pow positive, Format.mantissaBits,
    Format.minExponent]
  omega

theorem shiftToTargetExponent_eq (h : Fits m e) (k : ℕ) :
    shiftToTargetExponent .binary64 (m * 2 ^ k) (e - k) .exact =
      (ExtendedMantissa.ofMantissaAndAccuracy m .exact, e) := by
  have amount : (e - (e - k)).toNat = k := by omega
  simp only [shiftToTargetExponent, h.targetExponent_eq k, shiftToExponent, amount,
    shiftRight_exact, sub_add_cancel]

theorem roundWithAccuracy_eq (h : Fits m e) (s : Sign) (k : ℕ) :
    roundWithAccuracy .binary64 s (m * 2 ^ k) (e - k) .exact = .finite s m e h.positive := by
  have second := h.shiftToTargetExponent_eq 0
  rw [pow_zero, mul_one, Nat.cast_zero, sub_zero] at second
  have rounded : (ExtendedMantissa.ofMantissaAndAccuracy m .exact).roundedMantissa = m := rfl
  have mantissa : (ExtendedMantissa.ofMantissaAndAccuracy m .exact).mantissa = m := rfl
  simp only [roundWithAccuracy, h.shiftToTargetExponent_eq k, rounded, second, mantissa,
    h.positive.ne', dite_false]

end Fits

end

theorem fits_of_unpack {b : BitVec Format.binary64.numBits} {s : Sign} {m : ℕ} {e : ℤ}
    {positive : 0 < m} (h : unpack .binary64 b = .finite s m e positive) : Fits m e := by
  have width : Format.binary64.mantissaBitsWithoutImplicit = 52 := rfl
  have mantissa : (unpackMantissa b).toNat < 0x10000000000000 := (unpackMantissa b).isLt
  have bias : ((Format.binary64.exponentBias : ℤ) +
      (Format.binary64.mantissaBitsWithoutImplicit : ℤ)) = 1075 := rfl
  unfold unpack at h
  dsimp only at h
  rw [bias] at h
  split_ifs at h with special infinite subnormal zero
  · cases h
    rw [subnormal]
    exact ⟨positive, by omega, by decide, .inl rfl⟩
  · cases h
    have exponent : (unpackExponent b).toNat ≠ 0 :=
      fun none => subnormal (BitVec.eq_of_toNat_eq none)
    have implicit : (1#1 ++ unpackMantissa b).toNat =
        0x10000000000000 + (unpackMantissa b).toNat := by
      rw [BitVec.toNat_append, Nat.shiftLeft_eq, Nat.mul_comm,
        ← Nat.two_pow_add_eq_or_of_lt (unpackMantissa b).isLt]
      rfl
    have large : 0x10000000000000 ≤ (1#1 ++ unpackMantissa b).toNat := by omega
    refine ⟨positive, by omega, ?_, .inr large⟩
    rw [leastExponent]
    omega

theorem unpack_one :
    (1 : Float).toModel.unpack = .finite .positive 0x10000000000000 (-52) (by decide) :=
  rfl

theorem unpack_neg_one :
    (-1 : Float).toModel.unpack = .finite .negative 0x10000000000000 (-52) (by decide) :=
  rfl

def signed (s : Sign) : UnpackedFloat → UnpackedFloat
  | .notANumber => .notANumber
  | .infinity t => .infinity (s * t)
  | .zero t => .zero (s * t)
  | .finite t m e h => .finite (s * t) m e h

theorem signed_positive (u : UnpackedFloat) : signed .positive u = u := by
  cases u with
  | notANumber => rfl
  | infinity t | zero t | finite t => cases t <;> rfl

theorem signed_negative (u : UnpackedFloat) : signed .negative u = u.neg := by
  cases u with
  | notANumber => rfl
  | infinity t | zero t | finite t => cases t <;> rfl

theorem mul_unit (s : Sign) (x : Float) :
    UnpackedFloat.mul .binary64 (.finite s 0x10000000000000 (-52) (by decide)) x.toModel.unpack =
      signed s x.toModel.unpack := by
  cases parts : x.toModel.unpack with
  | notANumber | infinity t | zero t => rfl
  | finite t m e positive =>
    have fits := fits_of_unpack parts
    have product : 0x10000000000000 * m = m * 2 ^ 52 := by rw [mul_comm]; norm_num
    have exponent : -52 + e = e - (52 : ℕ) := by rw [add_comm]; rfl
    rw [UnpackedFloat.mul, product, exponent, fits.roundWithAccuracy_eq]
    rfl

theorem one_mul (x : Float) : 1 * x = x := by
  refine Float.toBits_inj.mp (UInt64.toBitVec_inj.mp ?_)
  have product : (1 * x).toBits.toBitVec =
      pack .binary64 (UnpackedFloat.mul .binary64 (1 : Float).toModel.unpack x.toModel.unpack) :=
    rfl
  rw [product, unpack_one, mul_unit, signed_positive]
  exact pack_unpack_of_valid x.toModel.valid

theorem neg_one_mul (x : Float) : -1 * x = -x := by
  refine Float.toBits_inj.mp (UInt64.toBitVec_inj.mp ?_)
  have product : (-1 * x).toBits.toBitVec =
      pack .binary64 (UnpackedFloat.mul .binary64 (-1 : Float).toModel.unpack x.toModel.unpack) :=
    rfl
  rw [product, unpack_neg_one, mul_unit, signed_negative]
  rfl

def Unsigned (x : Float) : Prop := x.toBits.toNat ≤ infinityBits

instance (x : Float) : Decidable (Unsigned x) := inferInstanceAs (Decidable (_ ≤ infinityBits))

theorem Unsigned.isNegative {x : Float} (h : Unsigned x) : isNegative x = false := by
  rw [Unsigned, infinityBits] at h
  rw [Double.isNegative, decide_eq_false_iff_not]
  omega

theorem Unsigned.number {x : Float} (h : Unsigned x) : magnitudeBits x ≤ infinityBits := by
  rw [Unsigned] at h
  rw [magnitudeBits, Nat.mod_eq_of_lt (by rw [infinityBits] at h; omega)]
  exact h

theorem unsigned_ofMagnitude {bits : ℕ} (h : bits ≤ infinityBits) :
    Unsigned (ofMagnitude false bits) := by
  rw [Unsigned, toBits_ofMagnitude false h]
  exact h

theorem isNaN_eq (x : Float) : x.isNaN = decide (x = nan) := by
  have same : Float.nan = nan := by decide +kernel
  rw [Float.isNaN_eq_decide_eq_nan, same]

theorem Unsigned.isNaN {x : Float} (h : Unsigned x) : x.isNaN = false := by
  rw [isNaN_eq, decide_eq_false_iff_not, eq_nan_iff]
  exact h.number.not_gt

theorem unsigned_ofNat (n : ℕ) : Unsigned (ofInt n) := by
  have nonneg : ¬((n : ℤ) : ℚ) < 0 := by simp
  rw [ofInt_eq_roundTo, roundTo, decide_eq_false nonneg]
  exact unsigned_ofMagnitude (nearest_le_infinityBits _)

def IsUnsigned : UnpackedFloat → Prop
  | .notANumber => False
  | .infinity s => s = .positive
  | .zero s => s = .positive
  | .finite s _ _ _ => s = .positive

theorem Unsigned.unpack {x : Float} (h : Unsigned x) : IsUnsigned x.toModel.unpack := by
  have bits : x.toBits.toBitVec.toNat ≤ infinityBits := h
  have sign : @unpackSign .binary64 x.toBits.toBitVec = 0#1 := by
    refine BitVec.eq_of_toNat_eq ?_
    rw [unpackSign_def, BitVec.extractLsb'_toNat, Nat.shiftRight_eq_div_pow]
    have small : x.toBits.toBitVec.toNat / 0x8000000000000000 = 0 := by
      rw [infinityBits] at bits
      omega
    exact congrArg (· % 2) small
  have number : @isNaNBits .binary64 x.toBits.toBitVec = false := by
    rw [Bool.eq_false_iff, ne_eq, isNaNBits_iff]
    exact h.number.not_gt
  change IsUnsigned (Float.Model.UnpackedFloat.unpack .binary64 x.toBits.toBitVec)
  unfold Float.Model.UnpackedFloat.unpack
  dsimp only
  rw [sign]
  split_ifs with special infinite
  · rfl
  · exact absurd (decide_eq_true ⟨special, infinite⟩) (Bool.eq_false_iff.mp number)
  · rfl
  · rfl
  · rfl

theorem packComponents_positive (e : BitVec 11) (m : BitVec 52) :
    (packComponents .binary64 .positive e m).toNat = e.toNat * 0x10000000000000 + m.toNat := by
  have shape : (packComponents .binary64 .positive e m).toNat =
      (0#1 ++ e ++ m : BitVec (1 + 11 + 52)).toNat := rfl
  rw [shape, BitVec.toNat_append, BitVec.toNat_append, Nat.shiftLeft_eq, Nat.mul_comm,
    ← Nat.two_pow_add_eq_or_of_lt m.isLt, BitVec.toNat_ofNat, Nat.zero_mod, Nat.zero_shiftLeft,
    Nat.zero_or, Nat.mul_comm]

theorem pack_unsigned {u : UnpackedFloat} (h : IsUnsigned u) :
    (pack .binary64 u).toNat ≤ infinityBits := by
  cases u with
  | notANumber => cases h
  | infinity s =>
    cases h
    decide
  | zero s =>
    cases h
    decide
  | finite s m e positive =>
    cases h
    unfold pack
    dsimp only
    have fraction : (BitVec.ofNat 52 m).toNat < 0x10000000000000 := (BitVec.ofNat 52 m).isLt
    split_ifs with large
    · decide
    · have small : (e + Format.binary64.exponentBias +
          Format.binary64.mantissaBitsWithoutImplicit).toNat + 1 < 2048 := Nat.lt_of_not_le large
      refine (packComponents_positive _ _).trans_le ?_
      rw [BitVec.toNat_ofNat, Nat.mod_eq_of_lt (by omega), infinityBits]
      omega
    · refine (packComponents_positive _ _).trans_le ?_
      change 0 * _ + (BitVec.ofNat 52 m).toNat ≤ _
      rw [infinityBits]
      omega

theorem roundWithAccuracy_unsigned (m : ℕ) (e : ℤ) :
    IsUnsigned (roundWithAccuracy .binary64 .positive m e .exact) := by
  unfold roundWithAccuracy
  dsimp only
  split_ifs <;> rfl

theorem normalize_unsigned (m : ℕ) (e : ℤ) :
    IsUnsigned (UnpackedFloat.normalize .binary64 (m : ℤ) e .positive) := by
  unfold UnpackedFloat.normalize
  split
  · rename_i below
    rw [compare_lt_iff_lt] at below
    omega
  · rfl
  · exact roundWithAccuracy_unsigned _ _

theorem add_unsigned {u v : UnpackedFloat} (hu : IsUnsigned u) (hv : IsUnsigned v) :
    IsUnsigned (UnpackedFloat.add .binary64 u v) := by
  cases u with
  | notANumber => cases hu
  | infinity s =>
    cases hu
    cases v with
    | notANumber => cases hv
    | infinity t =>
      cases hv
      rfl
    | zero t | finite t => rfl
  | zero s =>
    cases hu
    cases v with
    | notANumber => cases hv
    | infinity t | zero t =>
      cases hv
      rfl
    | finite t => exact hv
  | finite s m e =>
    cases hu
    cases v with
    | notANumber => cases hv
    | infinity t =>
      cases hv
      rfl
    | zero t => rfl
    | finite t n f =>
      cases hv
      exact normalize_unsigned ((m <<< _) + (n <<< _)) _

theorem Unsigned.add {x y : Float} (hx : Unsigned x) (hy : Unsigned y) : Unsigned (x + y) :=
  pack_unsigned (add_unsigned hx.unpack hy.unpack)

theorem Unsigned.mul_sixteen {x : Float} (hx : Unsigned x) : Unsigned (x * 16) := by
  have sixteen : (16 : Float).toModel.unpack =
      .finite .positive 0x10000000000000 (-48) (by decide) := rfl
  refine pack_unsigned
    (u := UnpackedFloat.mul .binary64 x.toModel.unpack (16 : Float).toModel.unpack) ?_
  have parts := hx.unpack
  rw [sixteen]
  cases shape : x.toModel.unpack with
  | notANumber =>
    rw [shape] at parts
    cases parts
  | infinity s | zero s =>
    rw [shape] at parts
    cases parts
    rfl
  | finite s m e positive =>
    rw [shape] at parts
    cases parts
    exact roundWithAccuracy_unsigned _ _

theorem parts_nan : parts nan = .nan := by decide +kernel

theorem unpack_nan : nan.toModel.unpack = .notANumber := rfl

theorem ofModel_pack_notANumber : Float.ofModel (.pack .notANumber) = nan := by decide +kernel

/-- An operation that is undefined as soon as one of its operands is. -/
structure Strict (f : Float → Float → Float) : Prop where
  left (y : Float) : f nan y = nan
  right (x : Float) : f x nan = nan

theorem strict_of_unpacked {f : Float → Float → Float}
    (g : UnpackedFloat → UnpackedFloat → UnpackedFloat)
    (same : ∀ x y, f x y = .ofModel (.pack (g x.toModel.unpack y.toModel.unpack)))
    (left : ∀ v, g .notANumber v = .notANumber) (right : ∀ u, g u .notANumber = .notANumber) :
    Strict f where
  left y := by rw [same, unpack_nan, left, ofModel_pack_notANumber]
  right x := by rw [same, unpack_nan, right, ofModel_pack_notANumber]

theorem strict_add : Strict (· + ·) :=
  strict_of_unpacked (UnpackedFloat.add .binary64) (fun _ _ => rfl) (fun _ => rfl)
    fun u => by cases u <;> rfl

theorem strict_sub : Strict (· - ·) :=
  strict_of_unpacked (UnpackedFloat.sub .binary64) (fun _ _ => rfl) (fun _ => rfl)
    fun u => by cases u <;> rfl

theorem strict_mul : Strict (· * ·) :=
  strict_of_unpacked (UnpackedFloat.mul .binary64) (fun _ _ => rfl) (fun _ => rfl)
    fun u => by cases u <;> rfl

theorem strict_div : Strict (· / ·) :=
  strict_of_unpacked (UnpackedFloat.div .binary64) (fun _ _ => rfl) (fun _ => rfl)
    fun u => by cases u <;> rfl

theorem strict_remainder : Strict remainder where
  left y := by rw [remainder, parts_nan]
  right x := by
    rw [remainder, parts_nan]
    cases parts x <;> rfl

theorem toInt32_ofInt {n : ℤ} (least : -0x80000000 ≤ n) (most : n < 0x80000000) :
    toInt32 (ofInt n) = n := by
  have finite : isFinite (ofInt n) = true := isFinite_ofInt (by omega)
  rcases parts_cases (ofInt n) with ⟨shape, -⟩ | ⟨shape, -⟩ | ⟨s, m, e, shape, canonical⟩
  · rw [isFinite, shape] at finite
    cases finite
  · rw [isFinite, shape] at finite
    cases finite
  · have whole : truncParts s m e = n := by
      rw [truncParts_eq canonical, value_ofInt (by omega), truncate_intCast]
    rw [toInt32, trunc?, shape]
    simp only [whole]
    exact Int.bmod_eq_of_le (by omega) (by omega)

theorem toInt32_bounds (x : Float) : -0x80000000 ≤ toInt32 x ∧ toInt32 x < 0x80000000 := by
  rw [toInt32]
  split
  · rename_i n _
    have least := Int.le_bmod (x := n) (m := 0x100000000) (by decide)
    have most := Int.bmod_lt (x := n) (m := 0x100000000) (by decide)
    omega
  · decide

end JsonTemplate.Number.Double

namespace JsonTemplate.Number.Quantity

theorem toDouble_outcome (x : Float) : (outcome x).toDouble = x := by
  rcases Double.parts_cases x with ⟨shape, undefined⟩ | ⟨shape, -⟩ | ⟨s, m, e, shape, -⟩
  · rw [outcome, shape]
    exact undefined.symm
  · rw [outcome, shape, toDouble]
  · rw [outcome, shape, toDouble]

theorem toDouble_combine {f : Float → Float → Float} (strict : Double.Strict f) (x y : Quantity) :
    (combine f x y).toDouble = f x.toDouble y.toDouble := by
  cases x with
  | undefined => exact (strict.left _).symm
  | defined x =>
    cases y with
    | undefined => exact (strict.right _).symm
    | defined y => exact toDouble_outcome _

theorem toDouble_neg (x : Quantity) : (-x).toDouble = -x.toDouble := by
  cases x with
  | undefined =>
    have same : -Double.nan = Double.nan := by decide +kernel
    exact same.symm
  | defined x => rfl

theorem toDouble_abs (x : Quantity) : x.abs.toDouble = x.toDouble.abs := by
  cases x with
  | undefined =>
    have same : Double.nan.abs = Double.nan := by decide +kernel
    exact same.symm
  | defined x => rfl

end JsonTemplate.Number.Quantity
