import FixedStep.Proofs.Decimal.Rounding
import FixedStep.Proofs.Float
/-!
# Packing — a finite number is its sign and its magnitude

The magnitude read off the bits of a finite number is canonical (`canonical_ofFloat`), a canonical magnitude packed
under a sign is read off again (`parts_ofParts`), and so a finite number that is not zero is its parts packed
(`ofParts_ofFloat`).  Its negative has the other sign and the same magnitude (`neg_ofParts`).
-/
namespace FixedStep

open Float.Model (Format UnpackedFloat)
open Float.Model.UnpackedFloat

namespace Binary

/-- The sign bit, as arithmetic names it. -/
def signOf (x : Float) : Sign := if isNegative x then .negative else .positive

theorem toBits_eq (x : Float) :
    x.toBits.toNat = (if isNegative x then 2 ^ 63 else 0) + exponentBits x * 2 ^ 52 + fractionBits x := by
  have hlt : x.toBits.toNat < 2 ^ 64 := x.toBits.toNat_lt
  unfold isNegative exponentBits fractionBits
  split
  · rename_i h
    have := beq_iff_eq.1 h
    omega
  · rename_i h
    have : x.toBits.toNat / 0x8000000000000000 ≠ 1 := fun heq => h (beq_iff_eq.2 heq)
    omega

theorem fractionBits_lt (x : Float) : fractionBits x < 2 ^ 52 := Nat.mod_lt _ (by decide)

theorem exponentBits_lt {x : Float} (h : isFinite x = true) : exponentBits x < 2047 := by
  have hne : exponentBits x ≠ 2047 := by simpa [isFinite] using h
  have hlt : exponentBits x < 2048 := Nat.mod_lt _ (by decide)
  omega

theorem ofFloat_subnormal {x : Float} (h : exponentBits x = 0) : ofFloat x = ⟨fractionBits x, -1074, false⟩ := if_pos h

theorem ofFloat_normal {x : Float} (h : exponentBits x ≠ 0) :
    ofFloat x = ⟨2 ^ 52 + fractionBits x, exponentBits x - 1075, fractionBits x == 0 && exponentBits x != 1⟩ :=
  if_neg h

/-- **The parts of a finite number are canonical.** -/
theorem canonical_ofFloat {x : Float} (h : isFinite x = true) : (ofFloat x).Canonical := by
  have hexponent := exponentBits_lt h
  have hfraction := fractionBits_lt x
  by_cases hzero : exponentBits x = 0
  · rw [ofFloat_subnormal hzero]
    exact ⟨by simp only; omega, by simp, by simp, .inl rfl, by simp⟩
  · rw [ofFloat_normal hzero]
    refine ⟨by simp only; omega, by simp only; omega, by simp only; omega, .inr (by simp), ?_⟩
    simp only [Bool.and_eq_true, beq_iff_eq, bne_iff_ne]
    constructor <;> rintro ⟨h₁, h₂⟩ <;> constructor <;> omega

/-- The magnitude determines the bits below the sign. -/
theorem bits_of_ofFloat {x y : Float} (h : ofFloat x = ofFloat y) :
    exponentBits x = exponentBits y ∧ fractionBits x = fractionBits y := by
  have hx := fractionBits_lt x
  have hy := fractionBits_lt y
  by_cases hzero : exponentBits x = 0 <;> by_cases hzero' : exponentBits y = 0 <;>
    simp only [ofFloat_subnormal, ofFloat_normal, hzero, hzero', ne_eq, not_false_eq_true, Binary.mk.injEq] at h <;> omega

/-- **A number is its sign and its magnitude.** -/
theorem eq_of_ofFloat {x y : Float} (hsign : isNegative x = isNegative y) (h : ofFloat x = ofFloat y) : x = y := by
  obtain ⟨hexponent, hfraction⟩ := bits_of_ofFloat h
  refine eq_of_toBits ?_
  rw [toBits_eq, toBits_eq, hsign, hexponent, hfraction]

/-! ## Unpacked numbers -/

theorem sign_toNat (x : Float) :
    (@UnpackedFloat.unpackSign .binary64 x.toBits.toBitVec).toNat = x.toBits.toNat / 0x8000000000000000 := by
  have hlt : x.toBits.toNat < 2 ^ 64 := x.toBits.toNat_lt
  simp [UnpackedFloat.unpackSign, BitVec.extractLsb, BitVec.extractLsb', Nat.shiftRight_eq_div_pow]
  omega

theorem ofBitVec_unpackSign (x : Float) :
    Sign.ofBitVec (@UnpackedFloat.unpackSign .binary64 x.toBits.toBitVec) = signOf x := by
  have hlt : x.toBits.toNat < 2 ^ 64 := x.toBits.toNat_lt
  have hzero : @UnpackedFloat.unpackSign .binary64 x.toBits.toBitVec = 0#1 ↔ x.toBits.toNat / 0x8000000000000000 = 0 := by
    rw [← BitVec.toNat_inj, sign_toNat]
    rfl
  by_cases h : x.toBits.toNat / 0x8000000000000000 = 0
  · rw [Sign.ofBitVec, if_pos (hzero.2 h), signOf, isNegative, h]
    rfl
  · rw [Sign.ofBitVec, if_neg (fun hz => h (hzero.1 hz)), signOf, isNegative,
      show x.toBits.toNat / 0x8000000000000000 = 1 by omega]
    rfl

theorem implicit_toNat (m : BitVec 52) : (1#1 ++ m).toNat = 2 ^ 52 + m.toNat := by
  rw [BitVec.toNat_append, ← Nat.shiftLeft_add_eq_or_of_lt m.isLt, Nat.shiftLeft_eq]
  rfl

/-- A finite number is unpacked into its sign and its magnitude. -/
theorem unpack_of_isFinite {x : Float} (h : isFinite x = true) (hpos : 0 < (ofFloat x).significand) :
    x.toModel.unpack = .finite (signOf x) (ofFloat x).significand (ofFloat x).exponent hpos := by
  have hunpack : x.toModel.unpack = UnpackedFloat.unpack .binary64 x.toBits.toBitVec := rfl
  have hbias : ((Format.exponentBias .binary64 : ℕ) : ℤ) = 1023 := rfl
  have hones : @UnpackedFloat.unpackExponent .binary64 x.toBits.toBitVec ≠ -1#_ := fun hones => by
    have := (exponent_eq_ones x).1 hones
    have := exponentBits_lt h
    omega
  have hzero : @UnpackedFloat.unpackExponent .binary64 x.toBits.toBitVec = 0#_ ↔ exponentBits x = 0 := by
    rw [← BitVec.toNat_inj, exponent_toNat]
    rfl
  rw [hunpack]
  unfold UnpackedFloat.unpack
  dsimp only
  rw [if_neg hones]
  by_cases hexponent : exponentBits x = 0
  · have hofFloat := ofFloat_subnormal hexponent
    rw [if_pos (hzero.2 hexponent)]
    split
    · rename_i hfraction
      rw [hofFloat, (fraction_eq_zero x).1 hfraction] at hpos
      cases hpos
    · congr 1
      · exact ofBitVec_unpackSign x
      · rw [hofFloat, fraction_toNat]
      · rw [hofFloat, exponent_toNat, hexponent, hbias]
        rfl
  · have hofFloat := ofFloat_normal hexponent
    rw [if_neg (fun hz => hexponent (hzero.1 hz))]
    congr 1
    · exact ofBitVec_unpackSign x
    · rw [hofFloat, implicit_toNat, fraction_toNat]
    · rw [hofFloat, exponent_toNat, hbias]
      rfl

/-! ## Packed numbers -/

/-- The number of a sign and a magnitude that is not zero. -/
def ofParts (sign : Sign) (b : Binary) (hpos : 0 < b.significand) : Float :=
  .ofModel (.pack (.finite sign b.significand b.exponent hpos))

/-- Packed components are found in their places again. -/
theorem bits_of_packComponents {x : Float} {sign : Sign} {exponent : BitVec 11} {fraction : BitVec 52}
    (h : x.toBits.toBitVec = packComponents .binary64 sign exponent fraction) :
    exponentBits x = exponent.toNat ∧ fractionBits x = fraction.toNat ∧ signOf x = sign := by
  refine ⟨?_, ?_, ?_⟩
  · rw [← exponent_toNat, h, unpackExponent_packComponents]
  · rw [← fraction_toNat, h, unpackMantissa_packComponents]
  · rw [← ofBitVec_unpackSign, h, unpackSign_packComponents, Sign.ofBitVec_toBitVec]

/-- **A canonical magnitude packed under a sign** is a finite number with these parts. -/
theorem parts_ofParts {b : Binary} (hb : b.Canonical) (sign : Sign) (hpos : 0 < b.significand) :
    isFinite (ofParts sign b hpos) = true ∧ ofFloat (ofParts sign b hpos) = b ∧ signOf (ofParts sign b hpos) = sign := by
  obtain ⟨s, q, narrow⟩ := b
  obtain ⟨hbits, hleast, hgreatest, hnormal, hnarrow⟩ := hb
  simp only at hbits hleast hgreatest hnormal hnarrow hpos
  have hbias : ((Format.exponentBias .binary64 : ℕ) : ℤ) = 1023 := rfl
  have hpacked : (ofParts sign ⟨s, q, narrow⟩ hpos).toBits.toBitVec =
      UnpackedFloat.pack .binary64 (.finite sign s q hpos) := rfl
  generalize ofParts sign ⟨s, q, narrow⟩ hpos = x at hpacked
  unfold UnpackedFloat.pack at hpacked
  simp only [hbias] at hpacked
  rw [if_neg (by norm_num; omega)] at hpacked
  by_cases hlarge : 2 ^ 52 ≤ s
  · have hlog : s.log2 + 1 = Format.binary64.mantissaBits := by
      have hle : 52 ≤ s.log2 := (Nat.le_log2 hpos.ne').2 hlarge
      have hlt : s.log2 < 53 := (Nat.log2_lt hpos.ne').2 hbits
      change s.log2 + 1 = 53
      omega
    rw [if_pos hlog] at hpacked
    obtain ⟨hexponent, hfraction, hsign⟩ := bits_of_packComponents hpacked
    rw [BitVec.toNat_ofNat] at hexponent hfraction
    have hexponent' : (exponentBits x : ℤ) = q + 1075 := by
      rw [hexponent]
      norm_num
      omega
    have hfraction' : fractionBits x = s - 2 ^ 52 := by
      rw [hfraction]
      norm_num
      omega
    refine ⟨?_, ?_, hsign⟩
    · simp only [isFinite, bne_iff_ne]
      omega
    · rw [ofFloat_normal (by omega), hfraction']
      refine Binary.mk.injEq .. ▸ ⟨by omega, by omega, ?_⟩
      rw [Bool.eq_iff_iff, hnarrow, Bool.and_eq_true, beq_iff_eq, bne_iff_ne]
      constructor <;> rintro ⟨h₁, h₂⟩ <;> constructor <;> omega
  · have hlog : s.log2 + 1 ≠ Format.binary64.mantissaBits := by
      have hlt : s.log2 < 52 := (Nat.log2_lt hpos.ne').2 (by omega)
      change s.log2 + 1 ≠ 53
      omega
    have hq : q = -1074 := hnormal.resolve_right hlarge
    rw [if_neg hlog] at hpacked
    obtain ⟨hexponent, hfraction, hsign⟩ := bits_of_packComponents hpacked
    have hexponent' : exponentBits x = 0 := hexponent
    have hfraction' : fractionBits x = s := by
      rw [hfraction, BitVec.toNat_ofNat, Nat.mod_eq_of_lt (by norm_num; omega)]
    have hwide : narrow = false := by
      rw [← Bool.not_eq_true, hnarrow]
      exact fun h => h.2 hq
    refine ⟨?_, ?_, hsign⟩
    · simp only [isFinite, bne_iff_ne]
      omega
    · rw [ofFloat_subnormal hexponent', hfraction', hq, hwide]

theorem isNegative_of_signOf {x y : Float} (h : signOf x = signOf y) : isNegative x = isNegative y := by
  unfold signOf at h
  cases hx : isNegative x <;> cases hy : isNegative y <;> rw [hx, hy] at h <;> first | rfl | cases h

/-- **A finite number that is not zero is its parts packed.** -/
theorem ofParts_ofFloat {x : Float} (h : isFinite x = true) (hpos : 0 < (ofFloat x).significand) :
    ofParts (signOf x) (ofFloat x) hpos = x := by
  obtain ⟨-, hofFloat, hsign⟩ := parts_ofParts (canonical_ofFloat h) (signOf x) hpos
  exact eq_of_ofFloat (isNegative_of_signOf hsign) hofFloat

theorem unpack_ofParts {b : Binary} (hb : b.Canonical) (hpos : 0 < b.significand) (sign : Sign) :
    (ofParts sign b hpos).toModel.unpack = .finite sign b.significand b.exponent hpos := by
  obtain ⟨hfinite, hofFloat, hsign⟩ := parts_ofParts hb sign hpos
  have hunpack := unpack_of_isFinite hfinite (hofFloat.symm ▸ hpos)
  rw [hunpack]
  congr 1
  · rw [hofFloat]
  · rw [hofFloat]

/-- The negative of packed parts has the other sign. -/
theorem neg_ofParts {b : Binary} (hb : b.Canonical) (sign : Sign) (hpos : 0 < b.significand) :
    Float.neg (ofParts sign b hpos) = ofParts (-sign) b hpos := by
  refine congrArg (fun u => Float.ofModel (.pack u)) ?_
  rw [unpack_ofParts hb hpos sign]
  rfl

/-! ## Zeros -/

theorem ofFloat_zero {x : Float} (h : (ofFloat x).significand = 0) : ofFloat x = ⟨0, -1074, false⟩ := by
  by_cases hexponent : exponentBits x = 0
  · rw [ofFloat_subnormal hexponent] at h ⊢
    rw [show fractionBits x = 0 from h]
  · rw [ofFloat_normal hexponent] at h
    simp at h

/-- **There is one zero without a sign.** -/
theorem eq_zero {x : Float} (h : (ofFloat x).significand = 0) (hsign : isNegative x = false) : x = 0.0 :=
  eq_of_ofFloat (hsign.trans (by decide +kernel)) ((ofFloat_zero h).trans (by decide +kernel))

/-- **There is one zero with a sign.** -/
theorem eq_neg_zero {x : Float} (h : (ofFloat x).significand = 0) (hsign : isNegative x = true) : x = Float.neg 0.0 :=
  eq_of_ofFloat (hsign.trans (by decide +kernel)) ((ofFloat_zero h).trans (by decide +kernel))

/-- A number without a sign is not below zero. -/
theorem zero_le {x : Float} (hnan : x.isNaN = false) (hsign : isNegative x = false) : (0.0 : Float) ≤ x := by
  have hzero : (0.0 : Float).toModel.unpack = .zero .positive := rfl
  have hpositive : Sign.ofBitVec (@UnpackedFloat.unpackSign .binary64 x.toBits.toBitVec) = .positive := by
    rw [ofBitVec_unpackSign, signOf, hsign]
    rfl
  have hunpack : x.toModel.unpack = UnpackedFloat.unpack .binary64 x.toBits.toBitVec := rfl
  have hle : ((0.0 : Float).toModel.unpack).le x.toModel.unpack = true := by
    have hnumber : x.toModel.unpack.isNaN = false := hnan
    rw [hzero]
    rw [hunpack] at hnumber ⊢
    unfold UnpackedFloat.unpack at hnumber ⊢
    simp only [hpositive] at hnumber ⊢
    split
    · split
      · rfl
      · rename_i hones hfraction
        rw [if_pos hones, if_neg hfraction] at hnumber
        cases hnumber
    · split
      · split <;> rfl
      · rfl
  exact decide_eq_true hle

end Binary
end FixedStep
