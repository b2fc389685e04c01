import JsonTemplate.Number.Double
import Mathlib.Algebra.Order.Field.Power
import Mathlib.Algebra.Order.Floor.Semifield
import Mathlib.Data.Int.Log
import Mathlib.Data.Rat.Floor
import Mathlib.Tactic.FieldSimp
import Mathlib.Tactic.Linarith
import Mathlib.Tactic.Positivity

namespace JsonTemplate.Number.Double

theorem roundHalfEven_scale (num den : ℕ) {k : ℕ} (h : 0 < k) :
    roundHalfEven (num * k) (den * k) = roundHalfEven num den := by
  have below : 2 * (num % den * k) < den * k ↔ 2 * (num % den) < den := by
    rw [← Nat.mul_assoc, Nat.mul_lt_mul_right h]
  have above : den * k < 2 * (num % den * k) ↔ den < 2 * (num % den) := by
    rw [← Nat.mul_assoc, Nat.mul_lt_mul_right h]
  simp only [roundHalfEven, Nat.mul_div_mul_right _ _ h, Nat.mul_mod_mul_right, below, above]

theorem roundHalfEven_cases (num den : ℕ) :
    roundHalfEven num den = num / den ∧ 2 * (num % den) ≤ den ∨
      roundHalfEven num den = num / den + 1 ∧ den ≤ 2 * (num % den) := by
  unfold roundHalfEven
  dsimp only
  split
  · exact .inl ⟨rfl, by omega⟩
  · split
    · exact .inr ⟨rfl, by omega⟩
    · split
      · exact .inl ⟨rfl, by omega⟩
      · exact .inr ⟨rfl, by omega⟩

theorem roundHalfEven_mono {num num' : ℕ} (h : num ≤ num') (den : ℕ) :
    roundHalfEven num den ≤ roundHalfEven num' den := by
  rcases Nat.eq_or_lt_of_le (Nat.div_le_div_right (c := den) h) with same | less
  · have parts := Nat.div_add_mod num den
    have parts' := Nat.div_add_mod num' den
    rw [← same] at parts'
    unfold roundHalfEven
    dsimp only
    rw [← same]
    split_ifs <;> omega
  · rcases roundHalfEven_cases num den with ⟨down, -⟩ | ⟨up, -⟩ <;>
      rcases roundHalfEven_cases num' den with ⟨down', -⟩ | ⟨up', -⟩ <;> omega

def roundEven (q : ℚ) : ℕ := roundHalfEven q.num.toNat q.den

theorem num_eq_toNat {q : ℚ} (h : 0 ≤ q) : (q.num.toNat : ℚ) = q.num := by
  exact_mod_cast Int.toNat_of_nonneg (Rat.num_nonneg.mpr h)

theorem toNat_div_den {q : ℚ} (h : 0 ≤ q) : (q.num.toNat : ℚ) / q.den = q := by
  rw [num_eq_toNat h, Rat.num_div_den]

theorem roundHalfEven_eq_roundEven (num : ℕ) {den : ℕ} (h : 0 < den) :
    roundHalfEven num den = roundEven (num / den) := by
  let q : ℚ := num / den
  have nonneg : 0 ≤ q := by positivity
  have cross : num * q.den = q.num.toNat * den := by
    have same : (q.num.toNat : ℚ) / q.den = num / den := toNat_div_den nonneg
    have positive : (q.den : ℚ) ≠ 0 := by exact_mod_cast q.den_ne_zero
    have positive' : (den : ℚ) ≠ 0 := by exact_mod_cast h.ne'
    rw [div_eq_div_iff positive positive'] at same
    exact_mod_cast same.symm
  rw [roundEven, ← roundHalfEven_scale num den q.den_pos, cross, Nat.mul_comm den,
    roundHalfEven_scale _ _ h]

theorem roundEven_natCast (n : ℕ) : roundEven n = n := by
  simp [roundEven, roundHalfEven, Nat.mod_one]

theorem roundEven_mono {q r : ℚ} (nonneg : 0 ≤ q) (h : q ≤ r) : roundEven q ≤ roundEven r := by
  have cross : q.num.toNat * r.den ≤ r.num.toNat * q.den := by
    have le : (q.num.toNat : ℚ) / q.den ≤ r.num.toNat / r.den := by
      rwa [toNat_div_den nonneg, toNat_div_den (nonneg.trans h)]
    rw [div_le_div_iff₀ (by exact_mod_cast q.den_pos) (by exact_mod_cast r.den_pos)] at le
    exact_mod_cast le
  rw [roundEven, roundEven, ← roundHalfEven_scale q.num.toNat q.den r.den_pos,
    ← roundHalfEven_scale r.num.toNat r.den q.den_pos, Nat.mul_comm r.den]
  exact roundHalfEven_mono cross _

theorem roundEven_eq_zero {q : ℚ} (nonneg : 0 ≤ q) (h : q < 1 / 2) : roundEven q = 0 := by
  have small : 2 * q.num.toNat < q.den := by
    have positive : (0 : ℚ) < q.den := by exact_mod_cast q.den_pos
    rw [← toNat_div_den nonneg, div_lt_iff₀ positive] at h
    have double : (2 * q.num.toNat : ℚ) < q.den := by linarith
    exact_mod_cast double
  have whole : q.num.toNat / q.den = 0 := Nat.div_eq_of_lt (by omega)
  rw [roundEven, roundHalfEven, Nat.mod_eq_of_lt (by omega), if_pos small, whole]

theorem le_roundEven {n : ℕ} {q : ℚ} (h : (n : ℚ) ≤ q) : n ≤ roundEven q :=
  roundEven_natCast n ▸ roundEven_mono n.cast_nonneg h

theorem roundEven_le {n : ℕ} {q : ℚ} (nonneg : 0 ≤ q) (h : q ≤ n) : roundEven q ≤ n :=
  roundEven_natCast n ▸ roundEven_mono nonneg h

/-- The magnitude bits of the double nearest to a rational number. -/
def nearest (q : ℚ) : ℕ :=
  if q = 0 then 0
  else
    let exponent := max (Int.log 2 q - 52) leastExponent
    min ((exponent - leastExponent).toNat * 0x10000000000000 + roundEven (q / 2 ^ exponent))
      infinityBits

theorem two_zpow_pos (e : ℤ) : (0 : ℚ) < 2 ^ e := by positivity

theorem two_zpow_toNat {e : ℤ} (h : 0 ≤ e) : ((2 ^ e.toNat : ℕ) : ℚ) = 2 ^ e := by
  obtain ⟨n, rfl⟩ := Int.eq_ofNat_of_zero_le h
  simp

theorem log_eq {q : ℚ} {e : ℤ} (least : 2 ^ e ≤ q) (most : q < 2 ^ (e + 1)) : Int.log 2 q = e := by
  have positive : 0 < q := (two_zpow_pos e).trans_le least
  have lower := (Int.zpow_le_iff_le_log (b := 2) (by decide) positive).mp (by exact_mod_cast least)
  have upper := (Int.lt_zpow_iff_log_lt (b := 2) (by decide) positive).mp (by exact_mod_cast most)
  omega

def reaches (num den : ℕ) (e : ℤ) : Bool :=
  if 0 ≤ e then den * Nat.pow 2 e.toNat ≤ num else den ≤ num * Nat.pow 2 (-e).toNat

theorem reaches_iff (num : ℕ) {den : ℕ} (positive : 0 < den) (e : ℤ) :
    reaches num den e = true ↔ (2 : ℚ) ^ e ≤ num / den := by
  have denPos : (0 : ℚ) < den := by exact_mod_cast positive
  rw [reaches, le_div_iff₀ denPos]
  split
  · rename_i nonneg
    rw [decide_eq_true_eq, ← two_zpow_toNat nonneg, Nat.pow_eq, Nat.mul_comm]
    exact_mod_cast Iff.rfl
  · rename_i negative
    have power : (0 : ℚ) < 2 ^ (-e) := two_zpow_pos _
    rw [decide_eq_true_eq, ← neg_neg e, zpow_neg, inv_mul_le_iff₀ power, neg_neg,
      ← two_zpow_toNat (by omega), Nat.pow_eq, Nat.mul_comm]
    exact_mod_cast Iff.rfl

theorem log_quotient {num den : ℕ} (some' : 0 < num) (positive : 0 < den) :
    let guess : ℤ := num.log2 - den.log2
    Int.log 2 ((num : ℚ) / den) = if reaches num den guess then guess else guess - 1 := by
  intro guess
  have numLow : (2 : ℚ) ^ (num.log2 : ℤ) ≤ num := by
    exact_mod_cast Nat.log2_self_le some'.ne'
  have numHigh : (num : ℚ) < 2 ^ ((num.log2 : ℤ) + 1) := by
    exact_mod_cast Nat.lt_log2_self (n := num)
  have denLow : (2 : ℚ) ^ (den.log2 : ℤ) ≤ den := by
    exact_mod_cast Nat.log2_self_le positive.ne'
  have denHigh : (den : ℚ) < 2 ^ ((den.log2 : ℤ) + 1) := by
    exact_mod_cast Nat.lt_log2_self (n := den)
  have denPos : (0 : ℚ) < den := by exact_mod_cast positive
  have below : (num : ℚ) / den < 2 ^ (guess + 1) := by
    rw [div_lt_iff₀ denPos]
    calc (num : ℚ) < 2 ^ ((num.log2 : ℤ) + 1) := numHigh
      _ = 2 ^ (guess + 1) * 2 ^ (den.log2 : ℤ) := by
        rw [← zpow_add₀ two_ne_zero]
        congr 1
        omega
      _ ≤ 2 ^ (guess + 1) * den := mul_le_mul_of_nonneg_left denLow (two_zpow_pos _).le
  have above : (2 : ℚ) ^ (guess - 1) ≤ num / den := by
    rw [le_div_iff₀ denPos]
    calc (2 : ℚ) ^ (guess - 1) * den ≤ 2 ^ (guess - 1) * 2 ^ ((den.log2 : ℤ) + 1) :=
          mul_le_mul_of_nonneg_left denHigh.le (two_zpow_pos _).le
      _ = 2 ^ (num.log2 : ℤ) := by
        rw [← zpow_add₀ two_ne_zero]
        congr 1
        omega
      _ ≤ num := numLow
  split
  · rename_i reached
    exact log_eq ((reaches_iff num positive guess).mp reached) below
  · rename_i short
    rw [reaches_iff num positive, not_le] at short
    exact log_eq above (by rwa [sub_add_cancel])

theorem roundHalfEven_zpow (num : ℕ) {den : ℕ} (positive : 0 < den) (e : ℤ) :
    (if 0 ≤ e then roundHalfEven num (den * Nat.pow 2 e.toNat)
      else roundHalfEven (num * Nat.pow 2 (-e).toNat) den) = roundEven (num / den / 2 ^ e) := by
  split
  · rename_i nonneg
    have power : 0 < Nat.pow 2 e.toNat := Nat.two_pow_pos _
    rw [roundHalfEven_eq_roundEven _ (Nat.mul_pos positive power), Nat.pow_eq, Nat.cast_mul,
      two_zpow_toNat nonneg, div_div]
  · rename_i negative
    rw [roundHalfEven_eq_roundEven _ positive, Nat.pow_eq, Nat.cast_mul,
      two_zpow_toNat (by omega), zpow_neg]
    congr 1
    field_simp

theorem nearestBits_eq_nearest (num : ℕ) {den : ℕ} (positive : 0 < den) :
    nearestBits num den = nearest (num / den) := by
  rcases Nat.eq_zero_or_pos num with rfl | some'
  · simp [nearestBits, nearest]
  · have quotient : (num : ℚ) / den ≠ 0 :=
      div_ne_zero (by exact_mod_cast some'.ne') (by exact_mod_cast positive.ne')
    have top := log_quotient some' positive
    rw [nearestBits, if_neg some'.ne', nearest, if_neg quotient, top]
    simp only [← roundHalfEven_zpow num positive]
    rfl

/-- The exponent that a number is rounded at: the last of the 53 bits of its mantissa, or the least
exponent. -/
structure Binade (q : ℚ) (e : ℤ) : Prop where
  least : leastExponent ≤ e
  above : e = leastExponent ∨ 2 ^ (e + 52) ≤ q
  below : q < 2 ^ (e + 53)

theorem exists_binade (q : ℚ) : ∃ e, Binade q e := by
  rcases lt_or_ge q (2 ^ (leastExponent + 53)) with small | large
  · exact ⟨leastExponent, le_rfl, .inl rfl, small⟩
  · have positive : 0 < q := (two_zpow_pos _).trans_le large
    have least := (Int.zpow_le_iff_le_log (b := 2) (by decide) positive).mp (by exact_mod_cast large)
    have above := Int.zpow_log_le_self (b := 2) (by decide) positive
    have below := Int.lt_zpow_succ_log_self (b := 2) (by decide) q
    refine ⟨Int.log 2 q - 52, by omega, .inr ?_, ?_⟩
    · rw [sub_add_cancel]
      exact_mod_cast above
    · have same : Int.log 2 q - 52 + 53 = Int.log 2 q + 1 := by omega
      rw [same]
      exact_mod_cast below

namespace Binade

variable {q r : ℚ} {e f : ℤ}

theorem nearest_eq (h : Binade q e) (nonneg : 0 ≤ q) :
    nearest q =
      min ((e - leastExponent).toNat * 0x10000000000000 + roundEven (q / 2 ^ e)) infinityBits := by
  rcases nonneg.eq_or_lt with rfl | positive
  · have least : e = leastExponent :=
      h.above.resolve_right fun above => (two_zpow_pos _).not_ge above
    have zero : roundEven 0 = 0 := by simpa using roundEven_natCast 0
    simp [nearest, least, zero]
  · have upper : Int.log 2 q < e + 53 :=
      (Int.lt_zpow_iff_log_lt (b := 2) (by decide) positive).mp (by exact_mod_cast h.below)
    have exponent : max (Int.log 2 q - 52) leastExponent = e := by
      rcases h.above with rfl | above
      · omega
      · have lower : e + 52 ≤ Int.log 2 q :=
          (Int.zpow_le_iff_le_log (b := 2) (by decide) positive).mp (by exact_mod_cast above)
        have := h.least
        omega
    rw [nearest, if_neg positive.ne', exponent]

theorem roundEven_le (h : Binade q e) (nonneg : 0 ≤ q) :
    roundEven (q / 2 ^ e) ≤ 0x20000000000000 := by
  have power : (0 : ℚ) < 2 ^ e := two_zpow_pos e
  have below := h.below
  rw [zpow_add₀ two_ne_zero] at below
  refine Double.roundEven_le (div_nonneg nonneg power.le) ?_
  rw [div_le_iff₀ power]
  norm_num at below ⊢
  linarith

theorem le_roundEven (above : 2 ^ (e + 52) ≤ q) : 0x10000000000000 ≤ roundEven (q / 2 ^ e) := by
  have power : (0 : ℚ) < 2 ^ e := two_zpow_pos e
  rw [zpow_add₀ two_ne_zero] at above
  refine Double.le_roundEven ?_
  rw [le_div_iff₀ power]
  norm_num at above ⊢
  linarith

theorem exponent_mono (first : Binade q e) (second : Binade r f) (h : q ≤ r) : e ≤ f := by
  rcases first.above with rfl | above
  · exact second.least
  · have powers : (2 : ℚ) ^ (e + 52) < 2 ^ (f + 53) := (above.trans h).trans_lt second.below
    have := (zpow_lt_zpow_iff_right₀ (by norm_num : (1 : ℚ) < 2)).mp powers
    omega

end Binade

theorem nearest_mono {q r : ℚ} (nonneg : 0 ≤ q) (h : q ≤ r) : nearest q ≤ nearest r := by
  obtain ⟨e, first⟩ := exists_binade q
  obtain ⟨f, second⟩ := exists_binade r
  rw [first.nearest_eq nonneg, second.nearest_eq (nonneg.trans h)]
  refine min_le_min_right _ ?_
  have least := first.least
  rcases (first.exponent_mono second h).eq_or_lt with rfl | less
  · have rounded : roundEven (q / 2 ^ e) ≤ roundEven (r / 2 ^ e) :=
      roundEven_mono (div_nonneg nonneg (two_zpow_pos e).le)
        (div_le_div_of_nonneg_right h (two_zpow_pos e).le)
    omega
  · -- The mantissa at the larger exponent is full, which makes up for one step of the exponent.
    have most := first.roundEven_le nonneg
    have full := Binade.le_roundEven (second.above.resolve_left (by omega))
    omega

/-- The number that the magnitude bits of a finite double stand for. -/
def magnitude (bits : ℕ) : ℚ :=
  if bits / 0x10000000000000 = 0 then bits * 2 ^ leastExponent
  else (0x10000000000000 + bits % 0x10000000000000 : ℕ) *
    2 ^ ((bits / 0x10000000000000 : ℕ) + leastExponent - 1)

theorem magnitude_nonneg (bits : ℕ) : 0 ≤ magnitude bits := by
  unfold magnitude
  split <;> exact mul_nonneg (Nat.cast_nonneg _) (two_zpow_pos _).le

theorem nearest_magnitude {bits : ℕ} (h : bits < infinityBits) : nearest (magnitude bits) = bits := by
  have bound : bits < 0x7ff0000000000000 := h
  obtain ⟨e, mantissa, same, binade, whole⟩ : ∃ (e : ℤ) (mantissa : ℕ),
      magnitude bits = mantissa * 2 ^ e ∧ Binade (magnitude bits) e ∧
        (e - leastExponent).toNat * 0x10000000000000 + mantissa = bits := by
    unfold magnitude
    split
    · rename_i subnormal
      refine ⟨leastExponent, bits, rfl, ⟨le_rfl, .inl rfl, ?_⟩, by omega⟩
      have small : (bits : ℚ) < 2 ^ (53 : ℤ) := by
        norm_num
        exact_mod_cast (by omega : bits < 9007199254740992)
      rw [zpow_add₀ two_ne_zero, mul_comm]
      exact mul_lt_mul_of_pos_left small (two_zpow_pos _)
    · rename_i normal
      refine ⟨_, _, rfl, ⟨by omega, .inr ?_, ?_⟩, by omega⟩
      · have large : (2 : ℚ) ^ (52 : ℤ) ≤ (0x10000000000000 + bits % 0x10000000000000 : ℕ) := by
          norm_num
        rw [zpow_add₀ two_ne_zero _ 52, mul_comm]
        exact mul_le_mul_of_nonneg_right large (two_zpow_pos _).le
      · have small : ((0x10000000000000 + bits % 0x10000000000000 : ℕ) : ℚ) < 2 ^ (53 : ℤ) := by
          norm_num
          exact_mod_cast (by omega : 4503599627370496 + bits % 4503599627370496 < 9007199254740992)
        rw [zpow_add₀ two_ne_zero _ 53, mul_comm]
        exact mul_lt_mul_of_pos_left small (two_zpow_pos _)
  rw [binade.nearest_eq (magnitude_nonneg bits), same, mul_div_cancel_right₀ _ (two_zpow_pos e).ne',
    roundEven_natCast, whole]
  exact Nat.min_eq_left h.le

theorem magnitude_lt_iff {m n : ℕ} (hm : m < infinityBits) (hn : n < infinityBits) :
    magnitude m < magnitude n ↔ m < n := by
  have mono {m n : ℕ} (hm : m < infinityBits) (hn : n < infinityBits)
      (h : magnitude m ≤ magnitude n) : m ≤ n := by
    have := nearest_mono (magnitude_nonneg m) h
    rwa [nearest_magnitude hm, nearest_magnitude hn] at this
  constructor
  · intro less
    refine lt_of_le_of_ne (mono hm hn less.le) ?_
    rintro rfl
    exact less.false
  · intro less
    exact lt_of_not_ge fun le => less.not_ge (mono hn hm le)

theorem nearest_le_infinityBits (q : ℚ) : nearest q ≤ infinityBits := by
  unfold nearest
  split
  · exact Nat.zero_le _
  · exact Nat.min_le_right _ _

theorem nearest_eq_infinityBits {q : ℚ} (h : 2 ^ (1024 : ℤ) ≤ q) : nearest q = infinityBits := by
  have nonneg : 0 ≤ q := (two_zpow_pos _).le.trans h
  obtain ⟨e, binade⟩ := exists_binade q
  have large : 972 ≤ e := by
    have powers : (2 : ℚ) ^ (1024 : ℤ) < 2 ^ (e + 53) := h.trans_lt binade.below
    have := (zpow_lt_zpow_iff_right₀ (by norm_num : (1 : ℚ) < 2)).mp powers
    omega
  have full : 0x10000000000000 ≤ roundEven (q / 2 ^ e) := by
    refine Binade.le_roundEven (binade.above.resolve_left fun same => ?_)
    rw [same, leastExponent] at large
    omega
  rw [binade.nearest_eq nonneg]
  refine Nat.min_eq_right ?_
  rw [infinityBits, leastExponent]
  omega

theorem nearest_eq_zero {q : ℚ} (nonneg : 0 ≤ q) (h : q < 2 ^ (leastExponent - 1)) :
    nearest q = 0 := by
  have power : (0 : ℚ) < 2 ^ leastExponent := two_zpow_pos _
  have binade : Binade q leastExponent := by
    refine ⟨le_rfl, .inl rfl, h.trans ?_⟩
    exact zpow_lt_zpow_right₀ (by norm_num) (by omega)
  have half : q / 2 ^ leastExponent < 1 / 2 := by
    rw [zpow_sub_one₀ two_ne_zero] at h
    rw [div_lt_iff₀ power]
    linarith
  rw [binade.nearest_eq nonneg, roundEven_eq_zero (div_nonneg nonneg power.le) half]
  simp

theorem magnitude_bits {e : ℤ} {m : ℕ} (least : leastExponent ≤ e) (most : m ≤ 0x20000000000000)
    (full : e = leastExponent ∨ 0x10000000000000 ≤ m) :
    magnitude ((e - leastExponent).toNat * 0x10000000000000 + m) = m * 2 ^ e := by
  obtain ⟨k, rfl⟩ : ∃ k : ℕ, e = k + leastExponent := ⟨(e - leastExponent).toNat, by omega⟩
  rw [add_sub_cancel_right, Int.toNat_natCast]
  rcases Nat.lt_or_ge m 0x10000000000000 with small | large
  · have zero : k = 0 := by omega
    subst zero
    rw [Nat.zero_mul, Nat.zero_add, Nat.cast_zero, zero_add, magnitude,
      if_pos (Nat.div_eq_of_lt small)]
  · have normal : (k * 0x10000000000000 + m) / 0x10000000000000 ≠ 0 := by omega
    rw [magnitude, if_neg normal]
    rcases most.lt_or_eq with below | rfl
    · have fraction : 0x10000000000000 + (k * 0x10000000000000 + m) % 0x10000000000000 = m := by
        omega
      have biased : (k * 0x10000000000000 + m) / 0x10000000000000 = k + 1 := by omega
      rw [fraction, biased]
      congr 2
      omega
    · -- A mantissa that was rounded up to the next power of two is half as large, one step up.
      have fraction :
          0x10000000000000 + (k * 0x10000000000000 + 0x20000000000000) % 0x10000000000000 =
            0x10000000000000 := by
        omega
      have biased : (k * 0x10000000000000 + 0x20000000000000) / 0x10000000000000 = k + 2 := by
        omega
      have exponent : ((k + 2 : ℕ) : ℤ) + leastExponent - 1 = k + leastExponent + 1 := by omega
      rw [fraction, biased, exponent, zpow_add_one₀ two_ne_zero]
      push_cast
      ring

namespace Binade

variable {q : ℚ} {e : ℤ}

theorem magnitude_nearest (h : Binade q e) (nonneg : 0 ≤ q) (finite : nearest q < infinityBits) :
    magnitude (nearest q) = roundEven (q / 2 ^ e) * 2 ^ e := by
  have bits := h.nearest_eq nonneg
  have whole : nearest q = (e - leastExponent).toNat * 0x10000000000000 + roundEven (q / 2 ^ e) := by
    omega
  rw [whole]
  exact magnitude_bits h.least (h.roundEven_le nonneg) (h.above.imp_right le_roundEven)

end Binade

theorem nearest_natCast_lt {n : ℕ} (h : n ≤ 0x10000000000000000) : nearest n < infinityBits := by
  have power : nearest 0x10000000000000000 < infinityBits := by decide +kernel
  exact (nearest_mono n.cast_nonneg (by exact_mod_cast h)).trans_lt power

theorem magnitude_nearest_natCast {n : ℕ} (h : n < 0x20000000000000) :
    magnitude (nearest n) = n := by
  obtain ⟨e, binade⟩ := exists_binade (n : ℚ)
  have finite : nearest n < infinityBits := nearest_natCast_lt (by omega)
  have negative : e ≤ 0 := by
    rcases binade.above with rfl | above
    · decide
    · have bound : (2 : ℚ) ^ (e + 52) < 2 ^ (53 : ℤ) :=
        above.trans_lt (by norm_num; exact_mod_cast h)
      have := (zpow_lt_zpow_iff_right₀ (by norm_num : (1 : ℚ) < 2)).mp bound
      omega
  have whole : (n : ℚ) / 2 ^ e = (n * 2 ^ (-e).toNat : ℕ) := by
    rw [Nat.cast_mul, two_zpow_toNat (by omega), zpow_neg, div_eq_mul_inv]
  rw [binade.magnitude_nearest n.cast_nonneg finite, whole, roundEven_natCast, ← whole,
    div_mul_cancel₀ _ (two_zpow_pos e).ne']

theorem le_magnitude_nearest_natCast {n : ℕ} (least : 0x20000000000000 ≤ n)
    (most : n ≤ 0x10000000000000000) : 0x20000000000000 ≤ magnitude (nearest n) := by
  have power : magnitude (nearest 0x20000000000000) = 0x20000000000000 := by decide +kernel
  have mono : nearest 0x20000000000000 ≤ nearest n :=
    nearest_mono (by norm_num) (by exact_mod_cast least)
  have finite := nearest_natCast_lt most
  rw [← power, ← not_lt, magnitude_lt_iff finite (mono.trans_lt finite)]
  exact mono.not_gt

end JsonTemplate.Number.Double
