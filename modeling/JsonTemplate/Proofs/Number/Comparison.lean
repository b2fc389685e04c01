import JsonTemplate.Proofs.Number.Arithmetic

namespace JsonTemplate.Number.Double

open Float.Model (Format UnpackedFloat)
open Float.Model.UnpackedFloat

def point? (x : Float) : Option (WithBotTop ℚ) :=
  match parts x with
  | .nan => none
  | .infinite negative => some (if negative then ⊥ else ⊤)
  | .finite _ _ _ => some (WithBotTop.coe (value x))

def Parts.ofUnpacked : UnpackedFloat → Parts
  | .notANumber => .nan
  | .infinity s => .infinite (s == .negative)
  | .zero s => .finite (s == .negative) 0 leastExponent
  | .finite s m e _ => .finite (s == .negative) m e

theorem unpackSign_eq (b : UInt64) :
    (Sign.ofBitVec (@unpackSign .binary64 b.toBitVec) == .negative) =
      decide (0x8000000000000000 ≤ b.toNat) := by
  have word := b.toNat_lt
  have sign : (@unpackSign .binary64 b.toBitVec).toNat = b.toNat / 0x8000000000000000 := by
    rw [unpackSign_def, BitVec.extractLsb'_toNat, Nat.shiftRight_eq_div_pow]
    exact Nat.mod_eq_of_lt (by change b.toNat / 0x8000000000000000 < 2; omega)
  by_cases negative : 0x8000000000000000 ≤ b.toNat
  · have set : @unpackSign .binary64 b.toBitVec = 1#1 :=
      BitVec.eq_of_toNat_eq (sign.trans (by rw [BitVec.toNat_ofNat]; omega))
    rw [set, decide_eq_true negative]
    rfl
  · have unset : @unpackSign .binary64 b.toBitVec = 0#1 :=
      BitVec.eq_of_toNat_eq (sign.trans (by rw [BitVec.toNat_ofNat]; omega))
    rw [unset, decide_eq_false negative]
    rfl

theorem parts_eq (x : Float) : parts x = .ofUnpacked x.toModel.unpack := by
  have exponent := toNat_unpackExponent x.toBits
  have mantissa := toNat_unpackMantissa x.toBits
  have special : @unpackExponent .binary64 x.toBits.toBitVec = -1#11 ↔
      x.toBits.toNat / 0x10000000000000 % 2048 = 2047 := by
    rw [← exponent, ← BitVec.toNat_inj]
    rfl
  have subnormal : @unpackExponent .binary64 x.toBits.toBitVec = 0#11 ↔
      x.toBits.toNat / 0x10000000000000 % 2048 = 0 := by
    rw [← exponent, ← BitVec.toNat_inj]
    rfl
  have zero : @unpackMantissa .binary64 x.toBits.toBitVec = 0#52 ↔
      x.toBits.toNat % 0x10000000000000 = 0 := by
    rw [← mantissa, ← BitVec.toNat_inj]
    rfl
  have implicit : (1#1 ++ @unpackMantissa .binary64 x.toBits.toBitVec).toNat =
      0x10000000000000 + x.toBits.toNat % 0x10000000000000 := by
    rw [BitVec.toNat_append, Nat.shiftLeft_eq, Nat.mul_comm,
      ← Nat.two_pow_add_eq_or_of_lt (unpackMantissa _).isLt, mantissa]
    rfl
  have bias : ((Format.binary64.exponentBias : ℤ) +
      (Format.binary64.mantissaBitsWithoutImplicit : ℤ)) = 1075 := rfl
  have sign := unpackSign_eq x.toBits
  change parts x = .ofUnpacked (unpack .binary64 x.toBits.toBitVec)
  unfold parts unpack
  dsimp only
  by_cases large : x.toBits.toNat / 0x10000000000000 % 2048 = 2047
  · rw [if_pos large, if_pos (special.mpr large)]
    by_cases none : x.toBits.toNat % 0x10000000000000 = 0
    · rw [if_pos none, if_pos (zero.mpr none), Parts.ofUnpacked, sign]
    · rw [if_neg none, if_neg (none ∘ zero.mp), Parts.ofUnpacked]
  · rw [if_neg large, if_neg (large ∘ special.mp)]
    by_cases least : x.toBits.toNat / 0x10000000000000 % 2048 = 0
    · rw [if_pos least, if_pos (subnormal.mpr least)]
      by_cases none : x.toBits.toNat % 0x10000000000000 = 0
      · rw [dif_pos (zero.mpr none), Parts.ofUnpacked, sign, none]
      · rw [dif_neg (none ∘ zero.mp), Parts.ofUnpacked, sign, exponent, mantissa, bias, least]
        rfl
    · rw [if_neg least, if_neg (least ∘ subnormal.mp), Parts.ofUnpacked, sign, exponent, implicit,
        bias, leastExponent]
      congr 1
      omega

theorem Fits.cmp_eq {m n : ℕ} {e f : ℤ} (h : Fits m e) (h' : Fits n f) :
    cmp (m * 2 ^ e : ℚ) (n * 2 ^ f) = (compare e f).then (compare m n) := by
  have below {m n : ℕ} {e f : ℤ} (h : Fits m e) (h' : Fits n f) (less : e < f) :
      (m * 2 ^ e : ℚ) < n * 2 ^ f := by
    have full : 0x10000000000000 ≤ n := h'.full.resolve_left (h.least.trans_lt less).ne'
    calc (m * 2 ^ e : ℚ) < 2 ^ (53 : ℤ) * 2 ^ e := by
          refine mul_lt_mul_of_pos_right ?_ (two_zpow_pos e)
          have := h.below
          norm_num
          exact_mod_cast this
      _ = 2 ^ (52 : ℤ) * 2 ^ (e + 1) := by
          rw [← zpow_add₀ two_ne_zero, ← zpow_add₀ two_ne_zero]
          ring_nf
      _ ≤ 2 ^ (52 : ℤ) * 2 ^ f := by
          have := zpow_le_zpow_right₀ (one_le_two (α := ℚ)) (by omega : e + 1 ≤ f)
          exact mul_le_mul_of_nonneg_left this (two_zpow_pos 52).le
      _ ≤ n * 2 ^ f := by
          refine mul_le_mul_of_nonneg_right ?_ (two_zpow_pos f).le
          norm_num
          exact_mod_cast full
  rcases lt_trichotomy e f with less | rfl | greater
  · rw [compare_lt_iff_lt.mpr less]
    exact cmp_eq_lt_iff _ _ |>.mpr (below h h' less)
  · rw [compare_eq_iff_eq.mpr rfl, Ordering.eq_then, cmp_mul_pos_right (two_zpow_pos e),
      Nat.strictMono_cast.cmp_map_eq, cmp_eq_compare]
  · rw [compare_gt_iff_gt.mpr greater]
    exact cmp_eq_gt_iff _ _ |>.mpr (below h' h greater)

def number? : UnpackedFloat → Option ℚ
  | .zero _ => some 0
  | .finite .positive m e _ => some (m * 2 ^ e)
  | .finite .negative m e _ => some (-(m * 2 ^ e))
  | _ => none

def place : UnpackedFloat → Option (WithBotTop ℚ)
  | .infinity .positive => some ⊤
  | .infinity .negative => some ⊥
  | u => (number? u).map WithBotTop.coe

theorem point?_eq (x : Float) : point? x = place x.toModel.unpack := by
  have shape := parts_eq x
  rcases parts_cases x with ⟨parts, -⟩ | ⟨parts, -⟩ | ⟨s, m, e, parts, canonical⟩
  · cases unpacked : x.toModel.unpack with
    | notANumber =>
      rw [point?, parts]
      rfl
    | infinity t | zero t | finite t =>
      rw [parts, unpacked] at shape
      cases shape
  · cases unpacked : x.toModel.unpack with
    | infinity t =>
      rw [point?, parts_eq, unpacked]
      cases t <;> rfl
    | notANumber | zero t | finite t =>
      rw [parts, unpacked] at shape
      cases shape
  · have number : point? x = some (WithBotTop.coe (if s then -(m * 2 ^ e) else m * 2 ^ e : ℚ)) := by
      rw [point?, parts, value, canonical.sign, canonical.value]
    rw [number]
    cases unpacked : x.toModel.unpack with
    | notANumber | infinity t =>
      rw [parts, unpacked] at shape
      cases shape
    | zero t =>
      rw [parts, unpacked] at shape
      cases shape
      simp [place, number?]
    | finite t n f positive =>
      rw [parts, unpacked] at shape
      cases shape
      cases t <;> rfl

theorem zero_lt_finite {m : ℕ} (e : ℤ) (positive : 0 < m) : (0 : ℚ) < m * 2 ^ e :=
  mul_pos (Nat.cast_pos.mpr positive) (two_zpow_pos e)

theorem zero_compare {u : UnpackedFloat} {q : ℚ} (s : Sign) (h : number? u = some q) :
    UnpackedFloat.compare (.zero s) u = some (cmp 0 q) := by
  cases u with
  | notANumber | infinity t => cases h
  | zero t =>
    cases h
    rfl
  | finite t m e positive =>
    have above := zero_lt_finite e positive
    cases t with
    | positive =>
      cases h
      exact congrArg some ((cmp_eq_lt_iff ..).mpr above).symm
    | negative =>
      cases h
      exact congrArg some ((cmp_eq_gt_iff ..).mpr (neg_lt_zero.mpr above)).symm

theorem compare_zero {u : UnpackedFloat} {q : ℚ} (s : Sign) (h : number? u = some q) :
    UnpackedFloat.compare u (.zero s) = some (cmp q 0) := by
  cases u with
  | notANumber | infinity t => cases h
  | zero t =>
    cases h
    rfl
  | finite t m e positive =>
    have above := zero_lt_finite e positive
    cases t with
    | positive =>
      cases h
      exact congrArg some ((cmp_eq_gt_iff ..).mpr above).symm
    | negative =>
      cases h
      exact congrArg some ((cmp_eq_lt_iff ..).mpr (neg_lt_zero.mpr above)).symm

theorem compare_finite {s t : Sign} {m n : ℕ} {e f : ℤ} {above : 0 < m} {above' : 0 < n} {q r : ℚ}
    (fits : Fits m e) (fits' : Fits n f) (hx : number? (.finite s m e above) = some q)
    (hy : number? (.finite t n f above') = some r) :
    UnpackedFloat.compare (.finite s m e above) (.finite t n f above') = some (cmp q r) := by
  have left := zero_lt_finite e above
  have right := zero_lt_finite f above'
  have size := fits.cmp_eq fits'
  cases s <;> cases t <;> cases hx <;> cases hy
  · have flip : StrictAnti (Neg.neg : ℚ → ℚ) := fun _ _ less => neg_lt_neg less
    rw [flip.cmp_map_eq, ← cmp_swap, size]
    rfl
  · exact congrArg some ((cmp_eq_lt_iff ..).mpr ((neg_lt_zero.mpr left).trans right)).symm
  · exact congrArg some ((cmp_eq_gt_iff ..).mpr ((neg_lt_zero.mpr right).trans left)).symm
  · exact congrArg some size.symm

theorem compare_number {x y : Float} {q r : ℚ} (hx : number? x.toModel.unpack = some q)
    (hy : number? y.toModel.unpack = some r) : x.toModel.compare y.toModel = some (cmp q r) := by
  rw [Float.Model.compare]
  cases shape : x.toModel.unpack with
  | notANumber | infinity s =>
    rw [shape] at hx
    cases hx
  | zero s =>
    rw [shape] at hx
    cases hx
    exact zero_compare s hy
  | finite s m e above =>
    rw [shape] at hx
    cases shape' : y.toModel.unpack with
    | notANumber | infinity t =>
      rw [shape'] at hy
      cases hy
    | zero t =>
      rw [shape'] at hy
      cases hy
      exact compare_zero t hx
    | finite t n f above' =>
      rw [shape'] at hy
      exact compare_finite (fits_of_unpack shape) (fits_of_unpack shape') hx hy

theorem place_cases {u : UnpackedFloat} {p : WithBotTop ℚ} (h : place u = some p) :
    u = .infinity .positive ∧ p = ⊤ ∨ u = .infinity .negative ∧ p = ⊥ ∨
      ∃ q, number? u = some q ∧ p = WithBotTop.coe q := by
  cases u with
  | infinity s =>
    cases s with
    | positive => exact .inl ⟨rfl, (Option.some.inj h).symm⟩
    | negative => exact .inr (.inl ⟨rfl, (Option.some.inj h).symm⟩)
  | notANumber => cases h
  | zero s => exact .inr (.inr ⟨0, rfl, (Option.some.inj h).symm⟩)
  | finite s m e positive =>
    obtain ⟨q, number, rfl⟩ := Option.map_eq_some_iff.mp h
    exact .inr (.inr ⟨q, number, rfl⟩)

theorem compare_infinity {u : UnpackedFloat} {q : ℚ} (h : number? u = some q) :
    UnpackedFloat.compare (.infinity .positive) u = some .gt ∧
      UnpackedFloat.compare (.infinity .negative) u = some .lt ∧
        UnpackedFloat.compare u (.infinity .positive) = some .lt ∧
          UnpackedFloat.compare u (.infinity .negative) = some .gt := by
  cases u with
  | notANumber | infinity s => cases h
  | zero s => exact ⟨rfl, rfl, rfl, rfl⟩
  | finite s => cases s <;> exact ⟨rfl, rfl, rfl, rfl⟩

theorem compare_point {x y : Float} {p q : WithBotTop ℚ} (hx : point? x = some p)
    (hy : point? y = some q) : x.toModel.compare y.toModel = some (cmp p q) := by
  rw [point?_eq] at hx hy
  have bot (r : ℚ) : (⊥ : WithBotTop ℚ) < r := WithBot.bot_lt_coe _
  have top (r : ℚ) : (r : WithBotTop ℚ) < ⊤ := WithBot.coe_lt_coe.mpr (WithTop.coe_lt_top r)
  obtain ⟨shape, rfl⟩ | ⟨shape, rfl⟩ | ⟨r, shape, rfl⟩ := place_cases hx <;>
  obtain ⟨shape', rfl⟩ | ⟨shape', rfl⟩ | ⟨t, shape', rfl⟩ := place_cases hy
  · rw [Float.Model.compare, shape, shape', cmp_self_eq_eq]
    rfl
  · rw [Float.Model.compare, shape, shape', (cmp_eq_gt_iff ..).mpr bot_lt_top]
    rfl
  · rw [Float.Model.compare, shape, (compare_infinity shape').1, (cmp_eq_gt_iff ..).mpr (top t)]
  · rw [Float.Model.compare, shape, shape', (cmp_eq_lt_iff ..).mpr bot_lt_top]
    rfl
  · rw [Float.Model.compare, shape, shape', cmp_self_eq_eq]
    rfl
  · rw [Float.Model.compare, shape, (compare_infinity shape').2.1, (cmp_eq_lt_iff ..).mpr (bot t)]
  · rw [Float.Model.compare, shape', (compare_infinity shape).2.2.1, (cmp_eq_lt_iff ..).mpr (top r)]
  · rw [Float.Model.compare, shape', (compare_infinity shape).2.2.2, (cmp_eq_gt_iff ..).mpr (bot r)]
  · rw [compare_number shape shape', WithBotTop.coe_strictMono.cmp_map_eq]

theorem point?_eq_none {x : Float} (h : point? x = none) : x.toModel.unpack = .notANumber := by
  rw [point?_eq] at h
  cases shape : x.toModel.unpack with
  | notANumber => rfl
  | infinity s | zero s | finite s =>
    rw [shape] at h
    cases s <;> cases h

theorem compare_eq (x y : Float) :
    x.toModel.compare y.toModel = Option.map₂ cmp (point? x) (point? y) := by
  cases hx : point? x with
  | none =>
    rw [Float.Model.compare, point?_eq_none hx]
    rfl
  | some p =>
    cases hy : point? y with
    | none =>
      rw [Float.Model.compare, point?_eq_none hy]
      cases x.toModel.unpack <;> rfl
    | some q => exact compare_point hx hy

theorem lt_iff_compare {x y : Float} : x < y ↔ x.toModel.compare y.toModel = some .lt := by
  have less : x < y ↔ decide (x.toModel < y.toModel) = true := Iff.rfl
  rw [less, decide_eq_true_iff]
  exact beq_iff_eq

theorem beq_iff_compare {x y : Float} :
    (x == y) = true ↔ x.toModel.compare y.toModel = some .eq := by
  have same : (x == y) = (x.toModel.compare y.toModel == some .eq) := rfl
  rw [same, beq_iff_eq]

end JsonTemplate.Number.Double
