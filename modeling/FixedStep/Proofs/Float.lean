import FixedStep.Decimal.Binary
/-!
# Float — numbers told apart by their bits

There is one NaN (`eq_nan`), and one infinity of either sign (`eq_infinity`, `eq_neg_infinity`).
-/
namespace FixedStep
namespace Binary

open Float.Model (Format UnpackedFloat)

theorem eq_of_toBits {x y : Float} (h : x.toBits.toNat = y.toBits.toNat) : x = y := by
  obtain ⟨⟨a, ha⟩⟩ := x
  obtain ⟨⟨b, hb⟩⟩ := y
  obtain rfl : a = b := UInt64.toNat_inj.1 h
  rfl

theorem exponent_toNat (x : Float) :
    (@UnpackedFloat.unpackExponent .binary64 x.toBits.toBitVec).toNat = exponentBits x := by
  simp [UnpackedFloat.unpackExponent, exponentBits, BitVec.extractLsb, BitVec.extractLsb', Nat.shiftRight_eq_div_pow]

theorem fraction_toNat (x : Float) :
    (@UnpackedFloat.unpackMantissa .binary64 x.toBits.toBitVec).toNat = fractionBits x := by
  simp [UnpackedFloat.unpackMantissa, fractionBits, BitVec.extractLsb, BitVec.extractLsb']

theorem exponent_eq_ones (x : Float) :
    @UnpackedFloat.unpackExponent .binary64 x.toBits.toBitVec = -1#_ ↔ exponentBits x = 2047 := by
  rw [← BitVec.toNat_inj, exponent_toNat]
  rfl

theorem fraction_eq_zero (x : Float) :
    @UnpackedFloat.unpackMantissa .binary64 x.toBits.toBitVec = 0#_ ↔ fractionBits x = 0 := by
  rw [← BitVec.toNat_inj, fraction_toNat]
  rfl

/-- A number is NaN when all its exponent bits are set, and some fraction bit. -/
theorem isNaN_iff (x : Float) : x.isNaN = true ↔ exponentBits x = 2047 ∧ fractionBits x ≠ 0 := by
  have hunpack : x.isNaN = (UnpackedFloat.unpack .binary64 x.toBits.toBitVec).isNaN := rfl
  rw [hunpack, ← exponent_eq_ones, Ne, ← fraction_eq_zero]
  unfold UnpackedFloat.unpack
  dsimp only
  -- the unpacking asks for the exponent first, and for the fraction at its two extremes only
  by_cases hexponent : @UnpackedFloat.unpackExponent .binary64 x.toBits.toBitVec = -1#_
  · rw [if_pos hexponent]
    by_cases hfraction : @UnpackedFloat.unpackMantissa .binary64 x.toBits.toBitVec = 0#_
    · rw [if_pos hfraction]
      exact ⟨fun h => absurd h Bool.false_ne_true, fun h => absurd hfraction h.2⟩
    · rw [if_neg hfraction]
      exact ⟨fun _ => ⟨hexponent, hfraction⟩, fun _ => rfl⟩
  · have hfalse : ∀ {p : Prop}, (false = true) ↔
        @UnpackedFloat.unpackExponent .binary64 x.toBits.toBitVec = -1#_ ∧ p := fun {p} =>
      ⟨fun h => absurd h Bool.false_ne_true, fun h => absurd h.1 hexponent⟩
    rw [if_neg hexponent]
    by_cases hzero : @UnpackedFloat.unpackExponent .binary64 x.toBits.toBitVec = 0#_
    · rw [if_pos hzero]
      by_cases hfraction : @UnpackedFloat.unpackMantissa .binary64 x.toBits.toBitVec = 0#_
      · rw [dif_pos hfraction]
        exact hfalse
      · rw [dif_neg hfraction]
        exact hfalse
    · rw [if_neg hzero]
      exact hfalse

/-- **There is one NaN.** -/
theorem eq_nan {x : Float} (h : x.isNaN = true) : x = 0.0 / 0.0 := by
  obtain ⟨hexponent, hfraction⟩ := (isNaN_iff x).1 h
  have hbits := x.toModel.valid.eq_packedNaN ((exponent_eq_ones x).2 hexponent)
    (fun hzero => hfraction ((fraction_eq_zero x).1 hzero))
  have hnan : (0.0 / 0.0 : Float).toBits.toBitVec = UnpackedFloat.packedNaN .binary64 := by decide +kernel
  exact eq_of_toBits (congrArg BitVec.toNat (hbits.trans hnan.symm))

/-- What is left when a number is neither finite nor NaN. -/
theorem toBits_of_infinite {x : Float} (hnan : x.isNaN = false) (hfinite : isFinite x = false) :
    x.toBits.toNat / 0x10000000000000 % 0x800 = 2047 ∧ x.toBits.toNat % 0x10000000000000 = 0 := by
  have hexponent : exponentBits x = 2047 := by simpa [isFinite] using hfinite
  refine ⟨hexponent, Decidable.byContradiction fun hfraction => ?_⟩
  have := (isNaN_iff x).2 ⟨hexponent, hfraction⟩
  rw [hnan] at this
  cases this

/-- **There is one infinity without a sign.** -/
theorem eq_infinity {x : Float} (hnan : x.isNaN = false) (hfinite : isFinite x = false)
    (hsign : isNegative x = false) : x = 1.0 / 0.0 := by
  obtain ⟨hexponent, hfraction⟩ := toBits_of_infinite hnan hfinite
  have hpositive : x.toBits.toNat / 0x8000000000000000 ≠ 1 := by simpa [isNegative] using hsign
  have hlt : x.toBits.toNat < 2 ^ 64 := x.toBits.toNat_lt
  have hinfinity : (1.0 / 0.0 : Float).toBits.toNat = 0x7ff0000000000000 := by decide +kernel
  refine eq_of_toBits ?_
  rw [hinfinity]
  omega

/-- **There is one infinity with a sign.** -/
theorem eq_neg_infinity {x : Float} (hnan : x.isNaN = false) (hfinite : isFinite x = false)
    (hsign : isNegative x = true) : x = Float.neg (1.0 / 0.0) := by
  obtain ⟨hexponent, hfraction⟩ := toBits_of_infinite hnan hfinite
  have hnegative : x.toBits.toNat / 0x8000000000000000 = 1 := by simpa [isNegative] using hsign
  have hlt : x.toBits.toNat < 2 ^ 64 := x.toBits.toNat_lt
  have hinfinity : (Float.neg (1.0 / 0.0)).toBits.toNat = 0xfff0000000000000 := by decide +kernel
  refine eq_of_toBits ?_
  rw [hinfinity]
  omega

end Binary
end FixedStep
