import JsonTemplate.Proofs.Number.Bits

namespace JsonTemplate.Number

namespace Double

def value (x : Float) : ℚ :=
  if isNegative x then -magnitude (magnitudeBits x) else magnitude (magnitudeBits x)

def roundTo (q : ℚ) : Float := ofMagnitude (q < 0) (nearest |q|)

theorem isFinite_iff {x : Float} : isFinite x = true ↔ magnitudeBits x < infinityBits := by
  rcases parts_cases x with ⟨shape, rfl⟩ | ⟨shape, bits⟩ | ⟨s, m, e, shape, canonical⟩
  · have beyond := eq_nan_iff.mp (rfl : nan = nan)
    rw [isFinite, shape]
    exact iff_of_false nofun beyond.not_gt
  · rw [isFinite, shape]
    exact iff_of_false nofun bits.not_lt
  · rw [isFinite, shape]
    exact iff_of_true rfl canonical.bits

theorem ofInt_eq_roundTo (n : ℤ) : ofInt n = roundTo n := by
  have size : ((n.natAbs : ℕ) : ℚ) = |(n : ℚ)| := by
    rw [Nat.cast_natAbs, Int.cast_abs]
  have sign : decide ((n : ℚ) < 0) = decide (n < 0) := by simp
  rw [ofInt, ofRatio, nearestBits_eq_nearest _ one_pos, Nat.cast_one, div_one, size, roundTo, sign]

theorem orderKey_eq (x : Float) :
    orderKey x = if isNegative x then -(magnitudeBits x : ℤ) - 1 else magnitudeBits x := by
  have word := x.toBits.toNat_lt
  rw [orderKey, isNegative, magnitudeBits]
  simp only [decide_eq_true_eq]
  split <;> omega

theorem orderKey_injective {x y : Float} (h : orderKey x = orderKey y) : x = y := by
  rw [orderKey_eq, orderKey_eq] at h
  have sign : isNegative x = isNegative y := by
    rw [Bool.eq_iff_iff]
    split at h <;> split at h <;> first | omega | simp_all only
  rw [sign] at h
  refine eq_of_magnitudeBits sign ?_
  split at h <;> omega

theorem orderKey_roundTo (q : ℚ) :
    orderKey (roundTo q) = if q < 0 then -(nearest (-q) : ℤ) - 1 else nearest q := by
  have bound := nearest_le_infinityBits |q|
  rw [orderKey_eq, roundTo, isNegative_ofMagnitude _ bound, magnitudeBits_ofMagnitude _ bound]
  simp only [decide_eq_true_eq]
  split
  · rename_i negative
    rw [abs_of_neg negative]
  · rename_i nonneg
    rw [abs_of_nonneg (not_lt.mp nonneg)]

theorem orderKey_roundTo_mono {q r : ℚ} (h : q ≤ r) :
    orderKey (roundTo q) ≤ orderKey (roundTo r) := by
  rw [orderKey_roundTo, orderKey_roundTo]
  split
  · rename_i negative
    split
    · rename_i negative'
      have := nearest_mono (neg_nonneg.mpr negative'.le) (neg_le_neg h)
      omega
    · omega
  · rename_i nonneg
    rw [if_neg (by linarith)]
    exact_mod_cast nearest_mono (not_lt.mp nonneg) h

@[simp] theorem orderKey_negativeZero : orderKey negativeZero = -1 := by decide +kernel

/-- A double that a number is rounded to. Zero may have either sign. -/
inductive Rounds : ℚ → Float → Prop where
  | nearest (q : ℚ) : Rounds q (roundTo q)
  | negativeZero : Rounds 0 negativeZero

theorem rounds_ofInt (n : ℤ) : Rounds n (ofInt n) := ofInt_eq_roundTo n ▸ .nearest n

theorem magnitude_eq_zero {bits : ℕ} (h : bits < infinityBits) (zero : magnitude bits = 0) :
    bits = 0 := by
  have rounded := nearest_magnitude h
  rw [zero] at rounded
  exact rounded.symm.trans (if_pos rfl)

@[simp] theorem value_negativeZero : value negativeZero = 0 := by
  have size : magnitudeBits negativeZero = 0 := by decide +kernel
  simp [value, size, magnitude]

@[simp] theorem value_roundTo_zero : value (roundTo 0) = 0 := by
  simp [value, roundTo, nearest, magnitude]

theorem rounds_value {x : Float} (h : isFinite x = true) : Rounds (value x) x := by
  have bits := isFinite_iff.mp h
  have nonneg := magnitude_nonneg (magnitudeBits x)
  by_cases zero : x = Double.negativeZero
  · subst zero
    exact value_negativeZero ▸ .negativeZero
  · have same : roundTo (value x) = x := by
      rw [roundTo, value]
      cases sign : isNegative x with
      | false =>
        have size : nearest |magnitude (magnitudeBits x)| = magnitudeBits x := by
          rw [abs_of_nonneg nonneg, nearest_magnitude bits]
        simp only [Bool.false_eq_true, if_false, size, not_lt.mpr nonneg, decide_false]
        rw [← sign, ofMagnitude_self bits.le]
      | true =>
        have size : nearest |-magnitude (magnitudeBits x)| = magnitudeBits x := by
          rw [abs_neg, abs_of_nonneg nonneg, nearest_magnitude bits]
        have positive : 0 < magnitude (magnitudeBits x) := by
          refine nonneg.lt_of_ne fun none => zero ?_
          refine eq_of_magnitudeBits (sign.trans (by decide +kernel)) ?_
          rw [magnitude_eq_zero bits none.symm]
          decide +kernel
        simp only [if_true, size, neg_neg_of_pos positive, decide_true]
        rw [← sign, ofMagnitude_self bits.le]
    have rounded := Rounds.nearest (value x)
    rwa [same] at rounded

namespace Rounds

variable {q r : ℚ} {x y : Float}

theorem orderKey_le (hx : Rounds q x) (hy : Rounds r y) (h : q < r) : orderKey x ≤ orderKey y := by
  cases hx with
  | nearest q =>
    cases hy with
    | nearest r => exact orderKey_roundTo_mono h.le
    | negativeZero =>
      rw [orderKey_roundTo, if_pos h, orderKey_negativeZero]
      omega
  | negativeZero =>
    cases hy with
    | nearest r =>
      rw [orderKey_roundTo, if_neg h.le.not_gt, orderKey_negativeZero]
      omega
    | negativeZero => exact le_rfl

theorem ne_nan (hx : Rounds q x) : x ≠ nan := by
  intro undefined
  have beyond := eq_nan_iff.mp undefined
  cases hx with
  | nearest q =>
    have bound := nearest_le_infinityBits |q|
    rw [roundTo, magnitudeBits_ofMagnitude _ bound] at beyond
    exact beyond.not_ge bound
  | negativeZero =>
    have size : magnitudeBits Double.negativeZero = 0 := by decide +kernel
    omega

theorem orderKey_lt_iff (hx : Rounds q x) (hy : Rounds r y) :
    orderKey x < orderKey y ↔
      q < r ∧ x ≠ y ∨ q = r ∧ x = Double.negativeZero ∧ y = roundTo 0 := by
  constructor
  · intro less
    rcases lt_trichotomy q r with below | rfl | above
    · refine .inl ⟨below, ?_⟩
      rintro rfl
      exact less.false
    · refine .inr ⟨rfl, ?_⟩
      cases hx with
      | nearest q =>
        cases hy with
        | nearest q => exact absurd less (lt_irrefl _)
        | negativeZero =>
          rw [orderKey_roundTo, if_neg (lt_irrefl _), orderKey_negativeZero] at less
          omega
      | negativeZero =>
        cases hy with
        | nearest q => exact ⟨rfl, rfl⟩
        | negativeZero => exact absurd less (lt_irrefl _)
    · exact absurd less (hy.orderKey_le hx above).not_gt
  · rintro (⟨below, other⟩ | ⟨-, rfl, rfl⟩)
    · exact (hx.orderKey_le hy below).lt_of_ne fun same => other (orderKey_injective same)
    · rw [orderKey_roundTo, if_neg (lt_irrefl _), orderKey_negativeZero]
      omega

end Rounds

def truncate (q : ℚ) : ℤ := if 0 ≤ q then ⌊q⌋ else ⌈q⌉

theorem lt_truncate_iff {n : ℤ} {q : ℚ} : n < truncate q ↔ n < q ∧ truncate q ≠ n := by
  unfold truncate
  split
  · constructor
    · intro less
      exact ⟨(Int.cast_lt.mpr less).trans_le (Int.floor_le q), less.ne'⟩
    · rintro ⟨less, other⟩
      exact (Int.le_floor.mpr less.le).lt_of_ne other.symm
  · constructor
    · intro less
      exact ⟨Int.lt_ceil.mp less, less.ne'⟩
    · rintro ⟨less, -⟩
      exact Int.lt_ceil.mpr less

theorem truncate_lt_iff {n : ℤ} {q : ℚ} : truncate q < n ↔ q < n ∧ truncate q ≠ n := by
  unfold truncate
  split
  · constructor
    · intro less
      exact ⟨Int.floor_lt.mp less, less.ne⟩
    · rintro ⟨less, -⟩
      exact Int.floor_lt.mpr less
  · constructor
    · intro less
      exact ⟨(Int.le_ceil q).trans_lt (Int.cast_lt.mpr less), less.ne⟩
    · rintro ⟨less, other⟩
      exact (Int.ceil_le.mpr less.le).lt_of_ne other

@[simp] theorem truncate_intCast (n : ℤ) : truncate n = n := by
  unfold truncate
  split
  · exact Int.floor_intCast n
  · exact Int.ceil_intCast n

theorem truncate_neg (q : ℚ) : truncate (-q) = -truncate q := by
  rcases lt_trichotomy q 0 with negative | rfl | positive
  · rw [truncate, if_pos (by linarith), truncate, if_neg (by linarith), Int.floor_neg]
  · simp [truncate]
  · rw [truncate, if_neg (by linarith), truncate, if_pos (by linarith), Int.ceil_neg]

theorem truncParts_false (m : ℕ) (e : ℤ) : truncParts false m e = truncate (m * 2 ^ e) := by
  have nonneg : (0 : ℚ) ≤ m * 2 ^ e := mul_nonneg m.cast_nonneg (two_zpow_pos e).le
  rw [truncParts, truncate, if_pos nonneg]
  simp only [Bool.false_eq_true, if_false, Nat.pow_eq]
  split
  · rename_i positive
    have whole : (m : ℚ) * 2 ^ e = ((m * 2 ^ e.toNat : ℕ) : ℤ) := by
      rw [← two_zpow_toNat positive]
      push_cast
      rfl
    rw [whole, Int.floor_intCast]
  · rename_i negative
    have quotient : (m : ℚ) * 2 ^ e = ((m : ℤ) : ℚ) / (2 ^ (-e).toNat : ℕ) := by
      rw [two_zpow_toNat (by omega), zpow_neg, div_inv_eq_mul, Int.cast_natCast]
    rw [quotient, Rat.floor_intCast_div_natCast]
    exact_mod_cast rfl

theorem truncParts_eq {x : Float} {s : Bool} {m : ℕ} {e : ℤ} (h : Parts.Canonical x s m e) :
    truncParts s m e = truncate (value x) := by
  rw [value, h.sign, h.value]
  cases s with
  | false => exact truncParts_false m e
  | true =>
    have mirror : truncParts true m e = -truncParts false m e := rfl
    rw [mirror, truncParts_false, if_pos rfl, truncate_neg]

theorem toInt64_eq {x : Float} (h : isFinite x = true) : toInt64 x = saturate (truncate (value x)) := by
  rcases parts_cases x with ⟨shape, -⟩ | ⟨shape, -⟩ | ⟨s, m, e, shape, canonical⟩
  · rw [isFinite, shape] at h
    cases h
  · rw [isFinite, shape] at h
    cases h
  · rw [toInt64, shape, ← truncParts_eq canonical]

theorem integral_iff {x : Float} {s : Bool} {m : ℕ} {e : ℤ} (h : Parts.Canonical x s m e) :
    (decide (0 ≤ e) || m % Nat.pow 2 (-e).toNat == 0) = true ↔ truncate (value x) = value x := by
  have size : (decide (0 ≤ e) || m % Nat.pow 2 (-e).toNat == 0) = true ↔
      (truncParts false m e : ℚ) = m * 2 ^ e := by
    rw [truncParts, Bool.or_eq_true, decide_eq_true_eq, beq_iff_eq, Nat.pow_eq]
    simp only [Bool.false_eq_true, if_false]
    split
    · rename_i positive
      refine iff_of_true (.inl positive) ?_
      rw [← two_zpow_toNat positive, Nat.pow_eq]
      push_cast
      rfl
    · rename_i negative
      have unit : (0 : ℚ) < (2 ^ (-e).toNat : ℕ) := by positivity
      have quotient : (m : ℚ) * 2 ^ e = m / (2 ^ (-e).toNat : ℕ) := by
        rw [two_zpow_toNat (by omega), zpow_neg, div_inv_eq_mul]
      rw [or_iff_right negative, quotient, eq_div_iff unit.ne', ← Nat.dvd_iff_mod_eq_zero]
      norm_cast
      exact Nat.dvd_iff_div_mul_eq _ _
  rw [size, ← truncParts_eq h, value, h.sign, h.value]
  cases s with
  | false => rfl
  | true =>
    have mirror : truncParts true m e = -truncParts false m e := rfl
    rw [mirror, if_pos rfl, Int.cast_neg, neg_inj]

theorem value_roundTo (q : ℚ) :
    value (roundTo q) =
      if q < 0 then -magnitude (nearest |q|) else magnitude (nearest |q|) := by
  have bound := nearest_le_infinityBits |q|
  rw [value, roundTo, isNegative_ofMagnitude _ bound, magnitudeBits_ofMagnitude _ bound]
  simp only [decide_eq_true_eq]

section

variable {n : ℤ}

theorem abs_intCast (n : ℤ) : |(n : ℚ)| = (n.natAbs : ℕ) := by rw [Nat.cast_natAbs, Int.cast_abs]

theorem isFinite_ofInt (h : n.natAbs ≤ 0x10000000000000000) : isFinite (ofInt n) = true := by
  rw [isFinite_iff, ofInt_eq_roundTo, roundTo,
    magnitudeBits_ofMagnitude _ (nearest_le_infinityBits _), abs_intCast]
  exact nearest_natCast_lt h

theorem value_ofInt (h : n.natAbs < 0x20000000000000) : value (ofInt n) = n := by
  rw [ofInt_eq_roundTo, value_roundTo, abs_intCast, magnitude_nearest_natCast h, ← abs_intCast]
  split
  · rename_i negative
    rw [abs_of_neg negative, neg_neg]
  · rename_i nonneg
    rw [abs_of_nonneg (not_lt.mp nonneg)]

theorem le_truncate_ofInt (least : 0x20000000000000 ≤ n.natAbs)
    (most : n.natAbs ≤ 0x10000000000000000) :
    0x20000000000000 ≤ (truncate (value (ofInt n))).natAbs := by
  have size := le_magnitude_nearest_natCast least most
  have floor : (0x20000000000000 : ℤ) ≤ truncate (magnitude (nearest n.natAbs)) := by
    rw [truncate, if_pos (magnitude_nonneg _)]
    exact Int.le_floor.mpr (by exact_mod_cast size)
  rw [ofInt_eq_roundTo, value_roundTo, abs_intCast]
  split
  · rw [truncate_neg]
    omega
  · omega

end

end Double

namespace Quantity

theorem ofDouble_eq {x : Float} (h : x ≠ Double.nan) : ofDouble x = defined x := by
  rcases Double.parts_cases x with ⟨-, undefined⟩ | ⟨shape, -⟩ | ⟨s, m, e, shape, -⟩
  · exact absurd undefined h
  · rw [ofDouble, shape]
  · rw [ofDouble, shape]

end Quantity

end JsonTemplate.Number
