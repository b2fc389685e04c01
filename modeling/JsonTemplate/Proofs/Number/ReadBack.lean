import JsonTemplate.Proofs.Number.DecimalText
import JsonTemplate.Proofs.Number.Order

namespace JsonTemplate.Number

namespace Double

theorem ten_zpow_toNat {e : ℤ} (h : 0 ≤ e) : ((10 ^ e.toNat : ℕ) : ℚ) = 10 ^ e := by
  obtain ⟨n, rfl⟩ := Int.eq_ofNat_of_zero_le h
  simp

theorem one_lt_ten : (1 : ℚ) < 10 := by norm_num

theorem two_pow_le_ten_pow {a b : ℕ} (h : a ≤ 3 * b) : (2 : ℚ) ^ a ≤ 10 ^ b := by
  calc (2 : ℚ) ^ a ≤ 2 ^ (3 * b) := pow_le_pow_right₀ one_le_two h
    _ = 8 ^ b := by rw [pow_mul]; norm_num
    _ ≤ 10 ^ b := pow_le_pow_left₀ (by norm_num) (by norm_num) b

theorem ten_zpow_lt : (10 : ℚ) ^ (-400 : ℤ) < 2 ^ (leastExponent - 1) := by
  have powers : (2 : ℚ) ^ 1075 < 10 ^ 400 :=
    (pow_lt_pow_right₀ one_lt_two (by decide : 1075 < 1076)).trans_le
      (two_pow_le_ten_pow (by decide))
  have least : leastExponent - 1 = -(1075 : ℕ) := by decide
  have decimal : (-400 : ℤ) = -(400 : ℕ) := by decide
  rw [least, decimal, zpow_neg, zpow_neg, zpow_natCast, zpow_natCast]
  exact inv_strictAnti₀ (by positivity) powers

theorem ofDecimal_eq (negative : Bool) (c : ℕ) (e : ℤ) :
    ofDecimal negative c e = ofMagnitude negative (nearest (c * 10 ^ e)) := by
  have power (e : ℤ) : (0 : ℚ) < 10 ^ e := by positivity
  unfold ofDecimal
  split
  · rename_i zero
    rw [zero, Nat.cast_zero, zero_mul, nearest, if_pos rfl]
  · rename_i some'
    have least : (1 : ℚ) ≤ c := by exact_mod_cast Nat.one_le_iff_ne_zero.mpr some'
    split
    · rename_i large
      have beyond : (2 : ℚ) ^ (1024 : ℤ) ≤ c * 10 ^ e := by
        calc (2 : ℚ) ^ (1024 : ℤ) ≤ 10 ^ (400 : ℤ) := by
              exact_mod_cast two_pow_le_ten_pow (by decide)
          _ ≤ 10 ^ e := zpow_le_zpow_right₀ one_lt_ten.le large.le
          _ ≤ c * 10 ^ e := le_mul_of_one_le_left (power e).le least
      rw [nearest_eq_infinityBits beyond]
    · split
      · rename_i nonneg
        rw [ofRatio, nearestBits_eq_nearest _ one_pos, Nat.cast_one, div_one, Nat.pow_eq,
          Nat.cast_mul, ten_zpow_toNat nonneg]
      · rename_i negative'
        split
        · rename_i small
          have beyond : (c : ℚ) * 10 ^ e < 2 ^ (leastExponent - 1) := by
            have size : (c : ℚ) ≤ 10 ^ ((c.log2 : ℤ) + 1) := by
              have binary : c ≤ 2 ^ (c.log2 + 1) := Nat.lt_log2_self.le
              have decimal : 2 ^ (c.log2 + 1) ≤ 10 ^ (c.log2 + 1) :=
                Nat.pow_le_pow_left (by decide) _
              exact_mod_cast binary.trans decimal
            calc (c : ℚ) * 10 ^ e ≤ 10 ^ ((c.log2 : ℤ) + 1) * 10 ^ e :=
                  mul_le_mul_of_nonneg_right size (power e).le
              _ = 10 ^ ((c.log2 : ℤ) + 1 + e) := (zpow_add₀ (by norm_num) _ _).symm
              _ ≤ 10 ^ (-400 : ℤ) := zpow_le_zpow_right₀ one_lt_ten.le (by omega)
              _ < 2 ^ (leastExponent - 1) := ten_zpow_lt
          rw [nearest_eq_zero (mul_nonneg c.cast_nonneg (power e).le) beyond]
        · have den : 0 < Nat.pow 10 (-e).toNat := Nat.pow_pos (by decide)
          rw [ofRatio, nearestBits_eq_nearest _ den, Nat.pow_eq, ten_zpow_toNat (by omega),
            zpow_neg, div_inv_eq_mul]

theorem ofBinary_eq (negative : Bool) (m : ℕ) (e : ℤ) :
    ofBinary negative m e = ofMagnitude negative (nearest (m * 2 ^ e)) := by
  unfold ofBinary
  split
  · rename_i nonneg
    rw [ofRatio, nearestBits_eq_nearest _ one_pos, Nat.cast_one, div_one, Nat.pow_eq, Nat.cast_mul,
      two_zpow_toNat nonneg]
  · rename_i negative'
    have den : 0 < Nat.pow 2 (-e).toNat := Nat.two_pow_pos _
    rw [ofRatio, nearestBits_eq_nearest _ den, Nat.pow_eq, two_zpow_toNat (by omega), zpow_neg,
      div_inv_eq_mul]

end Double

namespace Decimal

theorem toDouble_eq (d : Decimal) : d.toDouble = Double.ofMagnitude false (Double.nearest d.value) :=
  Double.ofDecimal_eq false d.coefficient d.scale

theorem toDouble_congr {d d' : Decimal} (h : d.value = d'.value) : d.toDouble = d'.toDouble := by
  rw [toDouble_eq, toDouble_eq, h]

theorem prefer_cases (tie : Tie) (low : ℕ) (side : Ordering) :
    prefer tie low side = low ∨ prefer tie low side = low + 1 := by
  unfold prefer
  split
  · exact .inl rfl
  · exact .inr rfl
  · split
    · exact .inr rfl
    · split
      · exact .inl rfl
      · exact .inr rfl

theorem onGrid_reads {tie : Tie} {x : Float} {num den : ℕ} {scale : ℤ} {d : Decimal}
    (h : onGrid tie x num den scale = some d) : d.coefficient ≠ 0 ∧ d.toDouble = x := by
  have reads (c : ℕ)
      (h : (c ≠ 0 && (toDouble ⟨c, scale⟩).toBits == x.toBits) = true) :
      c ≠ 0 ∧ toDouble ⟨c, scale⟩ = x := by
    rw [Bool.and_eq_true, beq_iff_eq, decide_eq_true_eq] at h
    exact ⟨h.1, Float.toBits_inj.mp h.2⟩
  unfold onGrid at h
  dsimp only at h
  split at h
  · rename_i low high
    cases h
    rcases prefer_cases tie (neighbours num den scale).1 (neighbours num den scale).2 with
      same | same
    · rw [same]
      exact reads _ low
    · rw [same]
      exact reads _ high
  · rename_i low high
    cases h
    exact reads _ low
  · rename_i low high
    cases h
    exact reads _ high
  · cases h

theorem exact_value (m : ℕ) (e : ℤ) : (exact m e).value = m * 2 ^ e := by
  unfold exact
  split
  · rename_i nonneg
    simp only [value, Nat.pow_eq, Nat.cast_mul, Double.two_zpow_toNat nonneg, zpow_zero, mul_one]
  · rename_i negative
    -- Ten is five times two, so the fives of the coefficient go away against the power of ten.
    obtain ⟨k, rfl⟩ : ∃ k : ℕ, e = -k := ⟨(-e).toNat, by omega⟩
    simp only [value, neg_neg, Int.toNat_natCast, Nat.pow_eq, zpow_neg, zpow_natCast]
    have ten : (10 : ℚ) ^ k = 5 ^ k * 2 ^ k := by rw [← mul_pow]; norm_num
    rw [ten]
    push_cast
    field_simp

theorem stripZeros_value (fuel : ℕ) (d : Decimal) : (stripZeros fuel d).value = d.value := by
  fun_induction stripZeros fuel d with
  | case1 d => rfl
  | case2 fuel d zero ih =>
    have tenfold : d.coefficient = d.coefficient / 10 * 10 := by omega
    rw [ih, value, value, zpow_add_one₀ (by norm_num)]
    nth_rewrite 2 [tenfold]
    push_cast
    ring
  | case3 => rfl

theorem shortest_toDouble (tie : Tie) (m : ℕ) (e : ℤ) :
    (shortest tie m e).toDouble = Double.ofMagnitude false (Double.nearest (m * 2 ^ e)) := by
  have x := Double.ofBinary_eq false m e
  have read {d : Decimal} (h : d.toDouble = Double.ofMagnitude false (Double.nearest (m * 2 ^ e))) :
      (stripZeros d.digits.length d).toDouble =
        Double.ofMagnitude false (Double.nearest (m * 2 ^ e)) :=
    (toDouble_congr (stripZeros_value _ d)).trans h
  rw [shortest]
  refine read ?_
  unfold Option.getD
  split
  · rename_i d found
    obtain ⟨k, -, grid⟩ := List.exists_of_findSome?_eq_some found
    exact (onGrid_reads grid).2.trans x
  · rw [toDouble_eq, exact_value]

theorem nearest_shortest (tie : Tie) (m : ℕ) (e : ℤ) :
    Double.nearest (shortest tie m e).value = Double.nearest (m * 2 ^ e) := by
  have same := congrArg Double.magnitudeBits (shortest_toDouble tie m e)
  rwa [toDouble_eq, Double.magnitudeBits_ofMagnitude false (Double.nearest_le_infinityBits _),
    Double.magnitudeBits_ofMagnitude false (Double.nearest_le_infinityBits _)] at same

end Decimal

theorem DecimalText.readDecimal?_chars (t : DecimalText) :
    readDecimal? t.chars = some (Double.ofMagnitude false (Double.nearest t.value)) := by
  rw [readDecimal?, t.readMagnitude?_chars, Option.map_some]
  exact congrArg some (Double.ofDecimal_eq false t.coefficient t.scale)

namespace Double

theorem formatNumber_cases {x : Float} (positive : isNegative x = false)
    (number : magnitudeBits x ≤ infinityBits) :
    x = infinity ∧ formatNumber x = "Infinity" ∨
      ∃ t : DecimalText, (formatNumber x).toList = t.chars ∧ readDecimal? t.chars = some x := by
  have self := ofMagnitude_self number
  rw [positive] at self
  rcases parts_cases x with ⟨-, undefined⟩ | ⟨shape, bits⟩ | ⟨s, m, e, shape, canonical⟩
  · exact absurd (eq_nan_iff.mp undefined) number.not_gt
  · refine .inl ⟨?_, ?_⟩
    · rw [← self, bits, infinity]
    · rw [formatNumber, shape, positive]
      rfl
  · right
    have rounded : ofMagnitude false (nearest (m * 2 ^ e)) = x := by
      rw [← canonical.value, nearest_magnitude canonical.bits, self]
    have sign : s = false := canonical.sign.symm.trans positive
    by_cases zero : m = 0
    · refine ⟨.zero, ?_, ?_⟩
      · rw [formatNumber, shape]
        simp only [zero, if_true]
        rfl
      · have none' : DecimalText.zero.value = m * 2 ^ e := by
          rw [zero, Nat.cast_zero, zero_mul]
          exact zero_mul _
        rw [DecimalText.readDecimal?_chars, none', rounded]
    · refine ⟨Layout.plain.decimalText (Decimal.shortest Layout.plain.tie m e), ?_, ?_⟩
      · rw [formatNumber, shape, sign, Layout.decimalText_chars]
        simp only [zero, if_false, String.toList_ofList]
        rfl
      · rw [DecimalText.readDecimal?_chars, Layout.decimalText_value, ← Decimal.toDouble_eq,
          Decimal.shortest_toDouble, rounded]

end Double

end JsonTemplate.Number
