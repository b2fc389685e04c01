import JsonTemplate.Number.Quantity
import JsonTemplate.Proofs.Number.Nearest
import Mathlib

namespace JsonTemplate.Number.Double

open Float.Model

/-- The bits of a double without its sign. -/
def magnitudeBits (x : Float) : ℕ := x.toBits.toNat % 0x8000000000000000

theorem toNat_unpackExponent (b : UInt64) :
    (@UnpackedFloat.unpackExponent .binary64 b.toBitVec).toNat =
      b.toNat / 0x10000000000000 % 2048 := by
  simp [UnpackedFloat.unpackExponent, Nat.shiftRight_eq_div_pow]

theorem toNat_unpackMantissa (b : UInt64) :
    (@UnpackedFloat.unpackMantissa .binary64 b.toBitVec).toNat =
      b.toNat % 0x10000000000000 := by
  simp [UnpackedFloat.unpackMantissa]

theorem isNaNBits_iff (b : UInt64) :
    @UnpackedFloat.isNaNBits .binary64 b.toBitVec = true ↔
      infinityBits < b.toNat % 0x8000000000000000 := by
  have exponent : @UnpackedFloat.unpackExponent .binary64 b.toBitVec = -1#11 ↔
      b.toNat / 0x10000000000000 % 2048 = 2047 := by
    rw [← toNat_unpackExponent, ← BitVec.toNat_inj]
    rfl
  have mantissa : @UnpackedFloat.unpackMantissa .binary64 b.toBitVec = 0#52 ↔
      b.toNat % 0x10000000000000 = 0 := by
    rw [← toNat_unpackMantissa, ← BitVec.toNat_inj]
    rfl
  rw [UnpackedFloat.isNaNBits, decide_eq_true_eq, ne_eq, exponent, mantissa, infinityBits]
  omega

theorem toBits_ofBits {b : UInt64} (h : b.toNat % 0x8000000000000000 ≤ infinityBits) :
    (Float.ofBits b).toBits = b := by
  have number : @UnpackedFloat.isNaNBits .binary64 b.toBitVec = false := by
    rw [Bool.eq_false_iff, ne_eq, isNaNBits_iff]
    exact h.not_gt
  have packed := @UnpackedFloat.pack_unpack .binary64 b.toBitVec (by decide)
  rw [number] at packed
  exact UInt64.toBitVec_inj.mp packed

theorem toBits_nan : nan.toBits = 0x7ff8000000000000 := by decide +kernel

theorem eq_nan_iff {x : Float} : x = nan ↔ infinityBits < magnitudeBits x := by
  constructor
  · rintro rfl
    decide +kernel
  · intro beyond
    have number := (isNaNBits_iff x.toBits).mpr beyond
    have packed := @UnpackedFloat.pack_unpack .binary64 x.toBits.toBitVec (by decide)
    have kept := UnpackedFloat.pack_unpack_of_valid x.toModel.valid
    rw [number] at packed
    rw [← Float.toBits_inj, toBits_nan]
    exact UInt64.toBitVec_inj.mp (kept.symm.trans packed)

theorem toBits_ofMagnitude (negative : Bool) {bits : ℕ} (h : bits ≤ infinityBits) :
    (ofMagnitude negative bits).toBits.toNat =
      if negative then bits + 0x8000000000000000 else bits := by
  have bound : bits ≤ 0x7ff0000000000000 := h
  have word : (UInt64.ofNat (if negative then bits + 0x8000000000000000 else bits)).toNat =
      if negative then bits + 0x8000000000000000 else bits := by
    refine UInt64.toNat_ofNat_of_lt' ?_
    rw [UInt64.size]
    split <;> omega
  rw [ofMagnitude, toBits_ofBits, word]
  rw [word, infinityBits]
  split <;> omega

section

variable {bits : ℕ}

@[simp] theorem magnitudeBits_ofMagnitude (negative : Bool) (h : bits ≤ infinityBits) :
    magnitudeBits (ofMagnitude negative bits) = bits := by
  have bound : bits ≤ 0x7ff0000000000000 := h
  rw [magnitudeBits, toBits_ofMagnitude negative h]
  split <;> omega

@[simp] theorem isNegative_ofMagnitude (negative : Bool) (h : bits ≤ infinityBits) :
    isNegative (ofMagnitude negative bits) = negative := by
  have bound : bits ≤ 0x7ff0000000000000 := h
  rw [isNegative, toBits_ofMagnitude negative h]
  cases negative with
  | false => simpa using (by omega : bits < 0x8000000000000000)
  | true => simp

theorem ofMagnitude_self {x : Float} (h : magnitudeBits x ≤ infinityBits) :
    ofMagnitude (isNegative x) (magnitudeBits x) = x := by
  have word := x.toBits.toNat_lt
  rw [← Float.toBits_inj, ← UInt64.toNat_inj, toBits_ofMagnitude _ h, isNegative, magnitudeBits]
  simp only [decide_eq_true_eq]
  split <;> omega

end

theorem eq_of_magnitudeBits {x y : Float} (sign : isNegative x = isNegative y)
    (same : magnitudeBits x = magnitudeBits y) : x = y := by
  have word := x.toBits.toNat_lt
  have word' := y.toBits.toNat_lt
  rw [isNegative, isNegative, decide_eq_decide] at sign
  rw [magnitudeBits, magnitudeBits] at same
  rw [← Float.toBits_inj, ← UInt64.toNat_inj]
  omega

/-- What is known of the parts of a finite double. The mantissa is full, unless the exponent is the
least one. -/
structure Parts.Canonical (x : Float) (negative : Bool) (mantissa : ℕ) (exponent : ℤ) : Prop where
  sign : isNegative x = negative
  bits : magnitudeBits x < infinityBits
  value : magnitude (magnitudeBits x) = mantissa * 2 ^ exponent
  below : mantissa < 0x20000000000000
  least : leastExponent ≤ exponent
  full : exponent = leastExponent ∨ 0x10000000000000 ≤ mantissa

theorem parts_cases (x : Float) :
    parts x = .nan ∧ x = nan ∨
      parts x = .infinite (isNegative x) ∧ magnitudeBits x = infinityBits ∨
      ∃ s m e, parts x = .finite s m e ∧ Parts.Canonical x s m e := by
  have word := x.toBits.toNat_lt
  have exponent : x.toBits.toNat / 0x10000000000000 % 2048 = magnitudeBits x / 0x10000000000000 := by
    rw [magnitudeBits]
    omega
  have fraction : x.toBits.toNat % 0x10000000000000 = magnitudeBits x % 0x10000000000000 := by
    rw [magnitudeBits]
    omega
  have bound : magnitudeBits x < 0x8000000000000000 := Nat.mod_lt _ (by decide)
  have shape : parts x =
      if magnitudeBits x / 0x10000000000000 = 2047 then
        if magnitudeBits x % 0x10000000000000 = 0 then .infinite (isNegative x) else .nan
      else if magnitudeBits x / 0x10000000000000 = 0 then
        .finite (isNegative x) (magnitudeBits x % 0x10000000000000) leastExponent
      else .finite (isNegative x) (0x10000000000000 + magnitudeBits x % 0x10000000000000)
        ((magnitudeBits x / 0x10000000000000 : ℕ) + leastExponent - 1) := by
    rw [parts]
    simp only [exponent, fraction]
    rfl
  rw [shape, eq_nan_iff, infinityBits]
  split
  · split
    · exact .inr (.inl ⟨rfl, by omega⟩)
    · exact .inl ⟨rfl, by omega⟩
  · have finite : magnitudeBits x < infinityBits := by
      rw [infinityBits]
      omega
    refine .inr (.inr ?_)
    split
    · rename_i subnormal
      have whole : magnitudeBits x % 0x10000000000000 = magnitudeBits x := by omega
      refine ⟨_, _, _, rfl, rfl, finite, ?_, by omega, le_rfl, .inl rfl⟩
      rw [magnitude, if_pos subnormal, whole]
    · rename_i normal
      refine ⟨_, _, _, rfl, rfl, finite, ?_, by omega, by omega, .inr (by omega)⟩
      rw [magnitude, if_neg normal]

end JsonTemplate.Number.Double
