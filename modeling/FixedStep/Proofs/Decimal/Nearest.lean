import FixedStep.Decimal.Reading
import FixedStep.Proofs.Decimal.Packing
/-!
# Nearest — the number that a decimal is read as

Products and quotients of magnitudes round to the magnitude whose interval holds them (`mul_of_contains`,
`div_of_contains`).  A decimal is read by one of either, small ones in numbers and others in naturals, so that it is
read as the number whose interval holds its value (`toFloat_of_contains`), and as no number with a sign
(`unsigned_toFloat`).
-/
namespace FixedStep

open Float.Model (Format UnpackedFloat)
open Float.Model.UnpackedFloat

namespace Rounding

/-! ## Products and quotients -/

/-- A quotient rounded down, with its remainder, stands for the quotient. -/
theorem stands_quotient {n d : ℕ} (hd : 0 < d) :
    Stands (ExtendedMantissa.ofMantissaAndAccuracy (n / d) (accuracyOfFraction (n % d) d)) (n / d : ℚ) := by
  have hdpos : (0 : ℚ) < d := by exact_mod_cast hd
  have hsplit : (n : ℚ) = d * (n / d : ℕ) + (n % d : ℕ) := by exact_mod_cast (Nat.div_add_mod n d).symm
  have hvalue : (n / d : ℚ) = (n / d : ℕ) + (n % d : ℕ) / d := by
    rw [hsplit]
    field_simp
  have hless : ((n % d : ℕ) : ℚ) / d < 1 := by
    rw [div_lt_one hdpos]
    exact_mod_cast Nat.mod_lt n hd
  rw [hvalue]
  generalize n % d = r at hless ⊢
  unfold accuracyOfFraction
  split
  · rename_i hzero
    subst hzero
    simp [Stands, ExtendedMantissa.ofMantissaAndAccuracy]
  · rename_i hzero
    have hrpos : (0 : ℚ) < r / d := div_pos (by exact_mod_cast Nat.pos_of_ne_zero hzero) hdpos
    -- twice the remainder beside the divisor tells the half of a unit
    cases hcompare : compare (2 * r) d with
    | lt =>
      have hlt : (2 * r : ℚ) < d := by exact_mod_cast Nat.compare_eq_lt.1 hcompare
      have hhalf : (r : ℚ) / d < 1 / 2 := by
        rw [div_lt_div_iff₀ hdpos (by norm_num)]
        linarith
      exact ⟨by simp only [ExtendedMantissa.ofMantissaAndAccuracy]; linarith,
        by simp only [ExtendedMantissa.ofMantissaAndAccuracy]; linarith⟩
    | eq =>
      have heq : (2 * r : ℚ) = d := by exact_mod_cast Nat.compare_eq_eq.1 hcompare
      have hhalf : (r : ℚ) / d = 1 / 2 := by
        rw [div_eq_div_iff hdpos.ne' (by norm_num)]
        linarith
      simp only [Stands, ExtendedMantissa.ofMantissaAndAccuracy, hhalf]
    | gt =>
      have hgt : (d : ℚ) < 2 * r := by exact_mod_cast Nat.compare_eq_gt.1 hcompare
      have hhalf : 1 / 2 < (r : ℚ) / d := by
        rw [div_lt_div_iff₀ (by norm_num) hdpos]
        linarith
      exact ⟨by simp only [ExtendedMantissa.ofMantissaAndAccuracy]; linarith,
        by simp only [ExtendedMantissa.ofMantissaAndAccuracy]; linarith⟩

variable {b : Binary} {m₁ m₂ : ℕ} {e₁ e₂ : ℤ}

/-- **A product of 53 bits or more rounds to the magnitude whose interval holds it.** -/
theorem mul_of_contains (hb : b.Canonical) (hpos : 0 < b.significand) (h₁ : 0 < m₁) (h₂ : 0 < m₂)
    (hbits : 2 ^ 52 ≤ m₁ * m₂) (hx : b.Contains (m₁ * 2 ^ e₁ * (m₂ * 2 ^ e₂))) :
    UnpackedFloat.mul .binary64 (.finite .positive m₁ e₁ h₁) (.finite .positive m₂ e₂ h₂) =
      .finite .positive b.significand b.exponent hpos := by
  have hlog : 52 ≤ (m₁ * m₂).log2 := (Nat.le_log2 (Nat.mul_pos h₁ h₂).ne').2 hbits
  refine roundWithAccuracy_of_contains hb hpos _ ?_ (by omega) hx
  have hunit : (2 : ℚ) ^ (e₁ + e₂) ≠ 0 := by positivity
  change m₁ * 2 ^ e₁ * (m₂ * 2 ^ e₂) / 2 ^ (e₁ + e₂) = ((m₁ * m₂ : ℕ) : ℚ)
  rw [div_eq_iff hunit, zpow_add₀ (by norm_num)]
  push_cast
  ring

/-- **A quotient rounds to the magnitude whose interval holds it.** -/
theorem div_of_contains (hb : b.Canonical) (hpos : 0 < b.significand) (h₁ : 0 < m₁) (h₂ : 0 < m₂)
    (hx : b.Contains (m₁ * 2 ^ e₁ / (m₂ * 2 ^ e₂))) :
    UnpackedFloat.div .binary64 (.finite .positive m₁ e₁ h₁) (.finite .positive m₂ e₂ h₂) =
      .finite .positive b.significand b.exponent hpos := by
  -- the exponent of the quotient is taken low enough for 53 bits
  obtain ⟨t, ht⟩ : ∃ t, t = min (e₁ - e₂)
      (Format.binary64.targetExponent (Float.Model.totalExponent m₁ e₁ - Float.Model.totalExponent m₂ e₂)) := ⟨_, rfl⟩
  obtain ⟨n, hn⟩ : ∃ n : ℕ, e₁ - e₂ = t + n := ⟨(e₁ - e₂ - t).toNat, by omega⟩
  have hshift : (e₁ - e₂ - t).toNat = n := by omega
  have hdiv : UnpackedFloat.div .binary64 (.finite .positive m₁ e₁ h₁) (.finite .positive m₂ e₂ h₂) =
      roundWithAccuracy .binary64 .positive (m₁ * 2 ^ n / m₂) t (accuracyOfFraction (m₁ * 2 ^ n % m₂) m₂) := by
    change roundWithAccuracy .binary64 .positive _ _ _ = _
    rw [← ht, hshift, Nat.shiftLeft_eq]
  rw [hdiv]
  refine roundWithAccuracy_of_contains hb hpos _ ?_ ?_ hx
  · have hvalue : (m₁ * 2 ^ e₁ / (m₂ * 2 ^ e₂) / 2 ^ t : ℚ) = (m₁ * 2 ^ n : ℕ) / m₂ := by
      have hm₂ : (m₂ : ℚ) ≠ 0 := by exact_mod_cast h₂.ne'
      have hpower : (2 : ℚ) ^ e₁ = 2 ^ t * 2 ^ n * 2 ^ e₂ := by
        rw [← zpow_natCast, ← zpow_add₀ (by norm_num), ← zpow_add₀ (by norm_num)]
        congr 1
        omega
      rw [hpower]
      push_cast
      field_simp
    rw [hvalue]
    exact stands_quotient h₂
  · by_cases hleast : t ≤ -1074
    · exact hleast.trans (le_max_right _ _)
    · have htarget : t ≤ m₁.log2 + e₁ - (m₂.log2 + e₂) - 53 := by
        have hle : t ≤ Format.binary64.targetExponent
          (Float.Model.totalExponent m₁ e₁ - Float.Model.totalExponent m₂ e₂) := ht ▸ min_le_right _ _
        simp only [Format.targetExponent, Float.Model.totalExponent] at hle
        have hbits : (Format.binary64.mantissaBits : ℤ) = 53 := rfl
        have hmin : Format.binary64.minExponent = -1074 := rfl
        rw [hbits, hmin] at hle
        omega
      have hquotient : 2 ^ 52 ≤ m₁ * 2 ^ n / m₂ := by
        rw [Nat.le_div_iff_mul_le h₂]
        calc 2 ^ 52 * m₂ ≤ 2 ^ 52 * 2 ^ (m₂.log2 + 1) := Nat.mul_le_mul_left _ (Nat.lt_log2_self).le
          _ = 2 ^ (52 + (m₂.log2 + 1)) := (Nat.pow_add ..).symm
          _ ≤ 2 ^ (m₁.log2 + n) := Nat.pow_le_pow_right (by decide) (by omega)
          _ = 2 ^ m₁.log2 * 2 ^ n := Nat.pow_add ..
          _ ≤ m₁ * 2 ^ n := Nat.mul_le_mul_right _ (Nat.log2_self_le h₁.ne')
      have hlog : 52 ≤ (m₁ * 2 ^ n / m₂).log2 :=
        (Nat.le_log2 (Nat.ne_of_gt (lt_of_lt_of_le (by decide) hquotient))).2 hquotient
      omega

theorem contains_value (b : Binary) : b.Contains b.value := by
  have hunit : (0 : ℚ) < 2 ^ (b.exponent - 2) := by positivity
  have hvalue : b.value = 4 * b.significand * 2 ^ (b.exponent - 2) := by
    rw [Binary.value, zpow_sub₀ (by norm_num)]
    ring
  have hlow : (4 * b.significand - if b.narrow then 1 else 2 : ℚ) * 2 ^ (b.exponent - 2) < b.value := by
    rw [hvalue]
    exact mul_lt_mul_of_pos_right (by split <;> linarith) hunit
  have hhigh : b.value < (4 * b.significand + 2) * 2 ^ (b.exponent - 2) := by
    rw [hvalue]
    exact mul_lt_mul_of_pos_right (by linarith) hunit
  unfold Binary.Contains
  simp only
  split
  · exact ⟨hlow.le, hhigh.le⟩
  · exact ⟨hlow, hhigh⟩

end Rounding

namespace Binary

/-- A natural as a magnitude of 53 bits. -/
def ofNat (m : ℕ) : Binary := ⟨m * 2 ^ (52 - m.log2), m.log2 - 52, m * 2 ^ (52 - m.log2) == 2 ^ 52⟩

variable {m : ℕ}

theorem ofNat_bits (hpos : 0 < m) (hm : m < 2 ^ 53) : 2 ^ 52 ≤ (ofNat m).significand ∧ (ofNat m).significand < 2 ^ 53 := by
  have hlog : m.log2 ≤ 52 := Nat.le_of_lt_succ ((Nat.log2_lt hpos.ne').2 hm)
  have hlow := Nat.log2_self_le hpos.ne'
  have hhigh := Nat.lt_log2_self (n := m)
  constructor
  · calc 2 ^ 52 = 2 ^ m.log2 * 2 ^ (52 - m.log2) := by rw [← Nat.pow_add]; congr 1; omega
      _ ≤ m * 2 ^ (52 - m.log2) := Nat.mul_le_mul_right _ hlow
  · calc m * 2 ^ (52 - m.log2) < 2 ^ (m.log2 + 1) * 2 ^ (52 - m.log2) :=
          Nat.mul_lt_mul_of_pos_right hhigh (Nat.two_pow_pos _)
      _ = 2 ^ 53 := by rw [← Nat.pow_add]; congr 1; omega

theorem canonical_ofNat (hpos : 0 < m) (hm : m < 2 ^ 53) : (ofNat m).Canonical := by
  obtain ⟨hlow, hhigh⟩ := ofNat_bits hpos hm
  have hlog : m.log2 ≤ 52 := Nat.le_of_lt_succ ((Nat.log2_lt hpos.ne').2 hm)
  refine ⟨hhigh, by simp only [ofNat]; omega, by simp only [ofNat]; omega, .inr hlow, ?_⟩
  simp only [ofNat, beq_iff_eq]
  exact ⟨fun h => ⟨h, by omega⟩, fun h => h.1⟩

theorem value_ofNat (hpos : 0 < m) (hm : m < 2 ^ 53) : (ofNat m).value = m := by
  have hlog : m.log2 ≤ 52 := Nat.le_of_lt_succ ((Nat.log2_lt hpos.ne').2 hm)
  obtain ⟨k, hk⟩ : ∃ k, 52 - m.log2 = k := ⟨_, rfl⟩
  have hexponent : (m.log2 : ℤ) - 52 = -(k : ℤ) := by omega
  simp only [value, ofNat, hk, hexponent, zpow_neg, zpow_natCast]
  push_cast
  field_simp

/-- **Naturals of 53 bits are numbers.** -/
theorem toFloat_ofNat (hpos : 0 < m) (hm : m < 2 ^ 53) (h : 0 < (ofNat m).significand) :
    m.toUInt64.toFloat = ofParts .positive (ofNat m) h := by
  have hcanonical := canonical_ofNat hpos hm
  have hlog : m.log2 ≤ 52 := Nat.le_of_lt_succ ((Nat.log2_lt hpos.ne').2 hm)
  have htoNat : m.toUInt64.toNat = m := by
    rw [UInt64.toNat_ofNat', Nat.mod_eq_of_lt]
    omega
  have hround : UnpackedFloat.ofUInt64 .binary64 m.toUInt64 =
      roundWithAccuracy .binary64 .positive (ofNat m).significand (ofNat m).exponent .exact := by
    rw [UnpackedFloat.ofUInt64, htoNat, UnpackedFloat.ofNat, UnpackedFloat.ofInt, UnpackedFloat.normalize,
      Int.compare_eq_gt.2 (by omega)]
    simp only [Int.toNat_natCast, UnpackedFloat.round, Rounding.targetExponent_eq, decreaseExponent, ofNat, Nat.shiftLeft_eq]
    have hshift : (0 - max ((m.log2 : ℤ) + 0 - 52) (-1074)).toNat = 52 - m.log2 := by omega
    have hexponent : 0 - ((52 - m.log2 : ℕ) : ℤ) = m.log2 - 52 := by omega
    rw [hshift, hexponent]
  have hfinite : UnpackedFloat.ofUInt64 .binary64 m.toUInt64 =
      .finite .positive (ofNat m).significand (ofNat m).exponent h := by
    rw [hround]
    refine Rounding.roundWithAccuracy_of_contains hcanonical h _ ?_ ?_ (Rounding.contains_value _)
    · have hunit : (2 : ℚ) ^ (ofNat m).exponent ≠ 0 := by positivity
      exact mul_div_cancel_right₀ _ hunit
    · have := (Nat.le_log2 h.ne').2 (ofNat_bits hpos hm).1
      omega
  exact congrArg (fun u => Float.ofModel (.pack u)) hfinite

/-- The powers of ten that reading keeps as numbers, in naturals. -/
theorem powersOfTen_bits : ∀ e : Fin Float.exactlyRepresentablePowersOfTen.size,
    let x := Float.exactlyRepresentablePowersOfTen[e]
    isFinite x = true ∧ isNegative x = false ∧ 2 ^ 52 ≤ (ofFloat x).significand ∧
      (ofFloat x).significand * 2 ^ (ofFloat x).exponent.toNat = 10 ^ (e : ℕ) * 2 ^ (-(ofFloat x).exponent).toNat := by
  decide +kernel

/-- A power with an exponent of either sign, by powers with naturals. -/
theorem zpow_eq_div {a : ℚ} (ha : a ≠ 0) (k : ℤ) : a ^ k = a ^ k.toNat / a ^ (-k).toNat := by
  rw [← zpow_natCast, ← zpow_natCast, ← zpow_sub₀ ha]
  congr 1
  omega

/-- **The powers of ten that reading keeps as numbers** are exact. -/
theorem unpack_powerOfTen {e : ℕ} (he : e < Float.exactlyRepresentablePowersOfTen.size) :
    ∃ (b : Binary) (hpos : 0 < b.significand),
      Float.exactlyRepresentablePowersOfTen[e].toModel.unpack = .finite .positive b.significand b.exponent hpos ∧
        2 ^ 52 ≤ b.significand ∧ b.value = 10 ^ e := by
  obtain ⟨hfinite, hsign, hbits, hvalue⟩ := powersOfTen_bits ⟨e, he⟩
  simp only [Fin.getElem_fin] at hfinite hsign hbits hvalue
  generalize Float.exactlyRepresentablePowersOfTen[e] = x at hfinite hsign hbits hvalue ⊢
  have hpos : 0 < (ofFloat x).significand := lt_of_lt_of_le (by decide) hbits
  refine ⟨ofFloat x, hpos, ?_, hbits, ?_⟩
  · rw [unpack_of_isFinite hfinite hpos, signOf, hsign]
    rfl
  · have hcast : ((ofFloat x).significand : ℚ) * 2 ^ (ofFloat x).exponent.toNat =
        10 ^ e * 2 ^ (-(ofFloat x).exponent).toNat := by exact_mod_cast hvalue
    rw [value, zpow_eq_div (by norm_num), ← mul_div_assoc, hcast]
    exact mul_div_cancel_right₀ _ (by positivity)

end Binary

/-! ## Decimals -/

namespace Rounding

variable {b : Binary} {x : ℚ}

/-- How small and how large the values are that round to a magnitude other than zero. -/
theorem reach_of_contains (hb : b.Canonical) (hpos : 0 < b.significand) (hx : b.Contains x) :
    (2 : ℚ) ^ (-1075 : ℤ) ≤ x ∧ x < 2 ^ 1024 := by
  obtain ⟨hlow, hhigh, -⟩ := contains_bounds hx
  have hone : (1 : ℚ) ≤ b.significand := by exact_mod_cast hpos
  have hbits : (b.significand : ℚ) + 1 ≤ 2 ^ 53 := by exact_mod_cast hb.bits
  have hunit : (0 : ℚ) < 2 ^ b.exponent := by positivity
  constructor
  · calc (2 : ℚ) ^ (-1075 : ℤ) ≤ 2 ^ (b.exponent - 1) :=
          zpow_le_zpow_right₀ (by norm_num) (by have := hb.least; omega)
      _ = 1 / 2 * 2 ^ b.exponent := by
          rw [zpow_sub₀ (by norm_num), zpow_one]
          ring
      _ ≤ (b.significand - 1 / 2) * 2 ^ b.exponent := mul_le_mul_of_nonneg_right (by linarith) hunit.le
      _ ≤ x := hlow
  · calc x ≤ (b.significand + 1 / 2) * 2 ^ b.exponent := hhigh
      _ < 2 ^ 53 * 2 ^ b.exponent := mul_lt_mul_of_pos_right (by linarith) hunit
      _ = 2 ^ (53 + b.exponent) := by
          rw [zpow_add₀ (by norm_num)]
          norm_num
      _ ≤ 2 ^ (1024 : ℤ) := zpow_le_zpow_right₀ (by norm_num) (by have := hb.greatest; omega)
      _ = 2 ^ 1024 := by norm_num

/-- Three bits are less than a decimal digit. -/
theorem two_pow_le_ten_pow {k j : ℕ} (h : k ≤ 3 * j) : (2 : ℚ) ^ k ≤ 10 ^ j :=
  calc (2 : ℚ) ^ k ≤ 2 ^ (3 * j) := pow_le_pow_right₀ (by norm_num) h
    _ = (2 ^ 3) ^ j := pow_mul ..
    _ ≤ 10 ^ j := pow_le_pow_left₀ (by norm_num) (by norm_num) j

variable {m : ℕ}

/-- Reading in naturals. -/
theorem unpacked_ofScientific (hb : b.Canonical) (hpos : 0 < b.significand) (hm : 0 < m) {e : ℤ}
    (hx : b.Contains (m * 10 ^ e)) :
    UnpackedFloat.ofScientific .binary64 m e = .finite .positive b.significand b.exponent hpos := by
  obtain ⟨hlow, hhigh⟩ := reach_of_contains hb hpos hx
  have hone : (1 : ℚ) ≤ m := by exact_mod_cast hm
  have htop : ¬ e > 2 ^ Format.binary64.exponentBits := fun h => by
    have hpower : (10 : ℚ) ^ ((342 : ℕ) : ℤ) ≤ 10 ^ e := zpow_le_zpow_right₀ (by norm_num) (by norm_num at h ⊢; omega)
    rw [zpow_natCast] at hpower
    have hlarge : (2 : ℚ) ^ 1024 ≤ 10 ^ e := (two_pow_le_ten_pow (by decide)).trans hpower
    exact absurd hhigh (not_lt.2 (hlarge.trans (le_mul_of_one_le_left (by positivity) hone)))
  have hbottom : ¬ e < -(2 ^ Format.binary64.exponentBits + (m.log2 : ℤ)) := fun h => by
    norm_num at h
    have hmantissa : (m : ℚ) < 2 ^ ((m.log2 : ℤ) + 1) := by
      exact_mod_cast Nat.lt_log2_self (n := m)
    have hpower : (10 : ℚ) ^ e ≤ 2 ^ e := by
      obtain ⟨k, hk⟩ : ∃ k : ℕ, e = -(k : ℤ) := ⟨(-e).toNat, by omega⟩
      rw [hk, zpow_neg, zpow_neg, zpow_natCast, zpow_natCast]
      exact inv_anti₀ (by positivity) (pow_le_pow_left₀ (by norm_num) (by norm_num) k)
    have hsmall : (m * 10 ^ e : ℚ) < 2 ^ (-1075 : ℤ) :=
      calc (m * 10 ^ e : ℚ) ≤ m * 2 ^ e := mul_le_mul_of_nonneg_left hpower (by positivity)
        _ < 2 ^ ((m.log2 : ℤ) + 1) * 2 ^ e := mul_lt_mul_of_pos_right hmantissa (by positivity)
        _ = 2 ^ ((m.log2 : ℤ) + 1 + e) := (zpow_add₀ (by norm_num) _ _).symm
        _ ≤ 2 ^ (-1075 : ℤ) := zpow_le_zpow_right₀ (by norm_num) (by omega)
    exact absurd hlow (not_le.2 hsmall)
  unfold UnpackedFloat.ofScientific
  rw [dif_neg hm.ne', if_neg htop, if_neg hbottom]
  split
  · rename_i he
    refine mul_of_contains hb hpos _ _ ?_ ?_
    · calc 2 ^ 52 ≤ m * 2 ^ 53 * 1 := by omega
        _ ≤ m <<< 53 * 10 ^ e.toNat := by
          rw [Nat.shiftLeft_eq]
          exact Nat.mul_le_mul_left _ (Nat.one_le_pow _ _ (by decide))
    · convert hx using 1
      have hpower : (10 : ℚ) ^ e = 10 ^ e.toNat := by rw [← zpow_natCast, Int.toNat_of_nonneg he]
      have hshift : ((m <<< Format.binary64.mantissaBits : ℕ) : ℚ) = m * 2 ^ 53 := by
        rw [Nat.shiftLeft_eq]
        push_cast
        rfl
      have hbits : (2 : ℚ) ^ (-(Format.binary64.mantissaBits : ℤ)) = (2 ^ 53)⁻¹ := by
        change (2 : ℚ) ^ (-(53 : ℤ)) = _
        norm_num
      rw [hpower, hshift, hbits]
      push_cast
      field_simp
  · rename_i he
    refine div_of_contains hb hpos _ _ ?_
    convert hx using 1
    have hpower : (10 : ℚ) ^ e = (10 ^ (-e).toNat)⁻¹ := by
      rw [← zpow_natCast, Int.toNat_of_nonneg (by omega), zpow_neg, inv_inv]
    rw [hpower]
    push_cast
    field_simp

/-- Reading in numbers, where both the mantissa and the power are numbers. -/
theorem ofScientific_of_contains (hb : b.Canonical) (hpos : 0 < b.significand) (hm : 0 < m) (negative : Bool) {e : ℕ}
    (hx : b.Contains (m * 10 ^ (if negative then -(e : ℤ) else e))) :
    Float.ofScientific m negative e = Binary.ofParts .positive b hpos := by
  unfold Float.ofScientific
  split
  · rename_i hsmall
    obtain ⟨hbits, he⟩ := hsmall
    have hwide := Binary.ofNat_bits hm hbits
    have hwidePos : 0 < (Binary.ofNat m).significand := lt_of_lt_of_le (by decide) hwide.1
    have hmantissa := Binary.unpack_ofParts (Binary.canonical_ofNat hm hbits) hwidePos .positive
    rw [← Binary.toFloat_ofNat hm hbits hwidePos] at hmantissa
    obtain ⟨p, hp, hpower, hpbits, hpvalue⟩ := Binary.unpack_powerOfTen (Nat.lt_succ_of_le he)
    have hvalue := Binary.value_ofNat hm hbits
    rw [Binary.value] at hvalue hpvalue
    cases negative with
    | true =>
      refine congrArg (fun u => Float.ofModel (.pack u)) ?_
      rw [hmantissa]
      refine (congrArg (UnpackedFloat.div .binary64 _) hpower).trans ?_
      refine div_of_contains hb hpos _ _ ?_
      rw [hvalue, hpvalue]
      rw [if_pos rfl, zpow_neg, zpow_natCast, ← div_eq_mul_inv] at hx
      exact hx
    | false =>
      refine congrArg (fun u => Float.ofModel (.pack u)) ?_
      rw [hmantissa]
      refine (congrArg (UnpackedFloat.mul .binary64 _) hpower).trans ?_
      refine mul_of_contains hb hpos _ _ ?_ ?_
      · exact hwide.1.trans (Nat.le_mul_of_pos_right _ hp)
      · rw [hvalue, hpvalue]
        rwa [if_neg Bool.false_ne_true, zpow_natCast] at hx
  · refine congrArg (fun u => Float.ofModel (.pack u)) ?_
    refine unpacked_ofScientific hb hpos hm ?_
    cases negative with
    | true => rwa [if_pos rfl] at hx ⊢
    | false => exact hx

end Rounding

namespace Decimal

def value (d : Decimal) : ℚ := d.mantissa * 10 ^ d.exponent

/-- **A decimal is read as the number whose interval holds it.** -/
theorem toFloat_of_contains {d : Decimal} {b : Binary} (hb : b.Canonical) (hpos : 0 < b.significand)
    (hx : b.Contains d.value) : d.toFloat = Binary.ofParts .positive b hpos := by
  obtain ⟨hlow, hhigh⟩ := Rounding.reach_of_contains hb hpos hx
  obtain ⟨m, e⟩ := d
  simp only [value] at hx hlow hhigh
  have hm : 0 < m := by
    refine Nat.pos_of_ne_zero fun hzero => ?_
    rw [hzero, Nat.cast_zero, zero_mul] at hlow
    exact absurd hlow (not_le.2 (by positivity))
  obtain ⟨n, hn⟩ : ∃ n, (Nat.toDigits 10 m).length = n + 1 := ⟨_, (Nat.succ_pred_eq_of_pos Nat.length_toDigits_pos).symm⟩
  have hless : (m : ℚ) < 10 ^ (n + 1) := by
    exact_mod_cast (Nat.length_toDigits_le_iff (by decide) (Nat.succ_pos n)).1 hn.le
  have hmore : (10 : ℚ) ^ n ≤ m := by
    rcases Nat.eq_zero_or_pos n with rfl | hnpos
    · exact_mod_cast hm
    · have := mt (Nat.length_toDigits_le_iff (by decide) hnpos).2 (by omega : ¬ (Nat.toDigits 10 m).length ≤ n)
      exact_mod_cast Nat.le_of_not_lt this
  have htop : ¬ (400 : ℤ) < n + 1 + e := fun h => by
    have hpower : (10 : ℚ) ^ ((400 : ℕ) : ℤ) ≤ 10 ^ (n + e) := zpow_le_zpow_right₀ (by norm_num) (by omega)
    rw [zpow_natCast] at hpower
    have hlarge : (2 : ℚ) ^ 1024 ≤ 10 ^ (n + e) := (Rounding.two_pow_le_ten_pow (by decide)).trans hpower
    have hmantissa : (10 : ℚ) ^ (n + e) ≤ m * 10 ^ e := by
      rw [zpow_add₀ (by norm_num), zpow_natCast]
      exact mul_le_mul_of_nonneg_right hmore (by positivity)
    exact absurd hhigh (not_lt.2 (hlarge.trans hmantissa))
  have hbottom : ¬ n + 1 + e < -400 := fun h => by
    have hpower : (10 : ℚ) ^ (n + 1 + e) ≤ 10 ^ (-((400 : ℕ) : ℤ)) := zpow_le_zpow_right₀ (by norm_num) (by omega)
    have hsmall : (10 : ℚ) ^ (-((400 : ℕ) : ℤ)) ≤ 2 ^ (-((1075 : ℕ) : ℤ)) := by
      rw [zpow_neg, zpow_neg, zpow_natCast, zpow_natCast]
      exact inv_anti₀ (by positivity) (Rounding.two_pow_le_ten_pow (by decide))
    have hmantissa : (m * 10 ^ e : ℚ) < 10 ^ (n + 1 + e) := by
      rw [zpow_add₀ (by norm_num), show (n : ℤ) + 1 = ((n + 1 : ℕ) : ℤ) by push_cast; rfl, zpow_natCast]
      exact mul_lt_mul_of_pos_right hless (by positivity)
    exact absurd hlow (not_le.2 (hmantissa.trans_le (hpower.trans hsmall)))
  have hexponent : (if decide (e < 0) = true then -(e.natAbs : ℤ) else e.natAbs) = e := by
    split
    · rename_i h
      have := of_decide_eq_true h
      omega
    · rename_i h
      have : ¬ e < 0 := fun hlt => h (decide_eq_true hlt)
      omega
  unfold toFloat
  simp only [hn, reach]
  rw [if_neg (not_or.2 ⟨hm.ne', by push_cast; exact hbottom⟩), if_neg (by push_cast; exact htop)]
  refine Rounding.ofScientific_of_contains hb hpos hm _ ?_
  rwa [hexponent]

end Decimal

/-! ## Signs -/

namespace Rounding

/-- A magnitude or an infinity, without a sign. -/
inductive Unsigned : UnpackedFloat → Prop where
  | zero : Unsigned (.zero .positive)
  | infinity : Unsigned (.infinity .positive)
  | finite (m : ℕ) (e : ℤ) (hpos : 0 < m) : Unsigned (.finite .positive m e hpos)

theorem unsigned_roundWithAccuracy (m : ℕ) (e : ℤ) (accuracy : Accuracy) :
    Unsigned (roundWithAccuracy .binary64 .positive m e accuracy) := by
  unfold roundWithAccuracy
  simp only
  split
  · exact .zero
  · exact .finite ..

theorem unsigned_ofScientific (m : ℕ) (e : ℤ) : Unsigned (UnpackedFloat.ofScientific .binary64 m e) := by
  unfold UnpackedFloat.ofScientific
  split
  · exact .zero
  · split
    · exact .infinity
    · split
      · exact .zero
      · split
        · exact unsigned_roundWithAccuracy ..
        · exact unsigned_roundWithAccuracy ..

/-- **Packing keeps a sign away**, and makes no NaN. -/
theorem Unsigned.pack {u : UnpackedFloat} (h : Unsigned u) :
    (Float.ofModel (.pack u)).isNaN = false ∧ Binary.isNegative (Float.ofModel (.pack u)) = false := by
  have hbits : (Float.ofModel (.pack u)).toBits.toBitVec = UnpackedFloat.pack .binary64 u := rfl
  generalize Float.ofModel (.pack u) = x at hbits
  -- NaN has all exponent bits and some fraction bit, which none of these has
  have hparts : ∀ {exponent : BitVec 11} {fraction : BitVec 52}, (exponent.toNat = 2047 → fraction.toNat = 0) →
      x.toBits.toBitVec = packComponents .binary64 .positive exponent fraction →
        x.isNaN = false ∧ Binary.isNegative x = false := by
    intro exponent fraction hnan hpacked
    obtain ⟨hexponent, hfraction, hsign⟩ := Binary.bits_of_packComponents hpacked
    constructor
    · rw [← Bool.not_eq_true, Binary.isNaN_iff, hexponent, hfraction]
      exact fun hboth => hboth.2 (hnan hboth.1)
    · unfold Binary.signOf at hsign
      split at hsign
      · cases hsign
      · rename_i hneg
        exact Bool.eq_false_iff.2 hneg
  cases h with
  | zero => exact hparts (fun _ => rfl) hbits
  | infinity => exact hparts (fun _ => rfl) hbits
  | finite m e hpos =>
    unfold UnpackedFloat.pack at hbits
    simp only at hbits
    split at hbits
    · exact hparts (fun _ => rfl) hbits
    · rename_i hsmall
      split at hbits
      · refine hparts (fun hones => absurd hones ?_) hbits
        rw [BitVec.toNat_ofNat]
        norm_num at hsmall ⊢
        omega
      · exact hparts (fun hones => absurd hones (by decide)) hbits

end Rounding

namespace Decimal

/-- **What is read has no sign.** -/
theorem unsigned_toFloat (d : Decimal) : d.toFloat.isNaN = false ∧ Binary.isNegative d.toFloat = false := by
  obtain ⟨m, e⟩ := d
  unfold toFloat
  simp only
  split
  · decide +kernel
  · rename_i hzero
    have hm : 0 < m := Nat.pos_of_ne_zero fun h => hzero (.inl h)
    split
    · decide +kernel
    · unfold Float.ofScientific
      split
      · rename_i hsmall
        have hwide := Binary.ofNat_bits hm hsmall.1
        have hwidePos : 0 < (Binary.ofNat m).significand := lt_of_lt_of_le (by decide) hwide.1
        have hmantissa := Binary.unpack_ofParts (Binary.canonical_ofNat hm hsmall.1) hwidePos .positive
        rw [← Binary.toFloat_ofNat hm hsmall.1 hwidePos] at hmantissa
        obtain ⟨p, hp, hpower, -, -⟩ := Binary.unpack_powerOfTen (Nat.lt_succ_of_le hsmall.2)
        have hquotient := congrArg₂ (UnpackedFloat.div .binary64) hmantissa hpower
        have hproduct := congrArg₂ (UnpackedFloat.mul .binary64) hmantissa hpower
        split
        · exact Rounding.Unsigned.pack (hquotient ▸ Rounding.unsigned_roundWithAccuracy ..)
        · exact Rounding.Unsigned.pack (hproduct ▸ Rounding.unsigned_roundWithAccuracy ..)
      · exact Rounding.Unsigned.pack (Rounding.unsigned_ofScientific ..)

end Decimal
end FixedStep
