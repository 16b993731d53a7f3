import FixedStep.Decimal.Binary
import Mathlib
/-!
# Rounding — the number whose interval holds a value

Around every magnitude lies the interval of the values that round to it: it reaches half way to the next magnitudes,
and holds its ends when the significand is even (`Binary.Contains`).  A value that arithmetic knows as a mantissa, and
how far beyond the mantissa it lies, is rounded to the magnitude whose interval holds it
(`roundWithAccuracy_of_contains`).
-/
namespace FixedStep

open Float.Model (Format UnpackedFloat totalExponent)
open Float.Model.UnpackedFloat

namespace Binary

/-- The magnitude as a rational. -/
def value (b : Binary) : ℚ := b.significand * 2 ^ b.exponent

/-- **The parts of a finite number**: the significand has 53 bits, fewer only at the least exponent, and the gap below
is narrow at the powers of two, the least normal one excepted. -/
structure Canonical (b : Binary) : Prop where
  bits : b.significand < 2 ^ 53
  least : -1074 ≤ b.exponent
  greatest : b.exponent ≤ 971
  normal : b.exponent = -1074 ∨ 2 ^ 52 ≤ b.significand
  narrow_iff : b.narrow = true ↔ b.significand = 2 ^ 52 ∧ b.exponent ≠ -1074

/-- **The values that round to a magnitude.** -/
def Contains (b : Binary) (x : ℚ) : Prop :=
  let low : ℚ := (4 * b.significand - if b.narrow then 1 else 2) * 2 ^ (b.exponent - 2)
  let high : ℚ := (4 * b.significand + 2) * 2 ^ (b.exponent - 2)
  if b.significand % 2 = 0 then low ≤ x ∧ x ≤ high else low < x ∧ x < high

end Binary

namespace Rounding

/-! ## Mantissas with two bits more -/

/-- A mantissa with its round bit and its sticky bit stands for a value: the bits say on which side of the half the
rest lies. -/
def Stands (em : ExtendedMantissa) (x : ℚ) : Prop :=
  match em.roundBit, em.stickyBit with
  | false, false => x = em.mantissa
  | false, true => em.mantissa < x ∧ x < em.mantissa + 1 / 2
  | true, false => x = em.mantissa + 1 / 2
  | true, true => em.mantissa + 1 / 2 < x ∧ x < em.mantissa + 1

/-- The natural that a value rounds to, halves to the even one. -/
def Nearest (m : ℕ) (x : ℚ) : Prop :=
  if m % 2 = 0 then (m : ℚ) - 1 / 2 ≤ x ∧ x ≤ m + 1 / 2 else (m : ℚ) - 1 / 2 < x ∧ x < m + 1 / 2

theorem Stands.bounds {em : ExtendedMantissa} {x : ℚ} (h : Stands em x) : (em.mantissa : ℚ) ≤ x ∧ x < em.mantissa + 1 := by
  obtain ⟨m, round, sticky⟩ := em
  cases round <;> cases sticky <;> simp only [Stands] at h <;> constructor <;> linarith

/-- Halving a value drops a bit of its mantissa. -/
theorem Stands.shiftRightOne {em : ExtendedMantissa} {x : ℚ} (h : Stands em x) : Stands em.shiftRightOne (x / 2) := by
  obtain ⟨m, round, sticky⟩ := em
  obtain ⟨k, hk | hk⟩ : ∃ k, m = 2 * k ∨ m = 2 * k + 1 := ⟨m / 2, by omega⟩
  · have hdiv : m / 2 = k := by omega
    have hmod : (m % 2 != 0) = false := by rw [show m % 2 = 0 by omega]; rfl
    have hm : (m : ℚ) = 2 * k := by exact_mod_cast hk
    cases round <;> cases sticky <;>
      simp only [Stands, ExtendedMantissa.shiftRightOne, hdiv, hmod, Bool.or_false, Bool.or_true, hm] at h ⊢ <;>
      first | linarith | (constructor <;> linarith)
  · have hdiv : m / 2 = k := by omega
    have hmod : (m % 2 != 0) = true := by rw [show m % 2 = 1 by omega]; rfl
    have hm : (m : ℚ) = 2 * k + 1 := by exact_mod_cast hk
    cases round <;> cases sticky <;>
      simp only [Stands, ExtendedMantissa.shiftRightOne, hdiv, hmod, Bool.or_false, Bool.or_true, hm] at h ⊢ <;>
      first | linarith | (constructor <;> linarith)

theorem Stands.shiftRight {em : ExtendedMantissa} {x : ℚ} (h : Stands em x) : ∀ n : ℕ, Stands (em >>> n) (x / 2 ^ n)
  | 0 => by
    rw [pow_zero, div_one]
    exact h
  | n + 1 => by
    rw [pow_succ, ← div_div]
    exact (h.shiftRight n).shiftRightOne

theorem eq_of_lt_add_one {m k : ℕ} (h : (m : ℚ) < k + 1) (h' : (k : ℚ) < m + 1) : m = k := by
  have hlt : m < k + 1 := by exact_mod_cast h
  have hlt' : k < m + 1 := by exact_mod_cast h'
  omega

theorem Nearest.bounds {m : ℕ} {x : ℚ} (h : Nearest m x) : (m : ℚ) - 1 / 2 ≤ x ∧ x ≤ m + 1 / 2 := by
  unfold Nearest at h
  split at h
  · exact h
  · exact ⟨h.1.le, h.2.le⟩

/-- **The rounded mantissa is the nearest natural.** -/
theorem Stands.roundedMantissa {em : ExtendedMantissa} {x : ℚ} (h : Stands em x) {m : ℕ} (hm : Nearest m x) :
    em.roundedMantissa = m := by
  obtain ⟨k, round, sticky⟩ := em
  obtain ⟨hlow, hhigh⟩ := hm.bounds
  cases round <;> cases sticky <;> simp only [Stands] at h
  · change k = m
    exact (eq_of_lt_add_one (by linarith) (by linarith)).symm
  · change k = m
    exact (eq_of_lt_add_one (by linarith) (by linarith)).symm
  · -- half way between two naturals: only the even one is near enough
    change k + k % 2 = m
    unfold Nearest at hm
    split at hm
    · have hle : (m : ℚ) ≤ k + 1 := by linarith
      have hge : (k : ℚ) ≤ m := by linarith
      have hle' : m ≤ k + 1 := by exact_mod_cast hle
      have hge' : k ≤ m := by exact_mod_cast hge
      omega
    · have hlt : (m : ℚ) < k + 1 := by linarith
      have hgt : (k : ℚ) < m := by linarith
      have hlt' : m < k + 1 := by exact_mod_cast hlt
      have hgt' : k < m := by exact_mod_cast hgt
      omega
  · change k + 1 = m
    refine (eq_of_lt_add_one ?_ ?_).symm
    · push_cast
      linarith
    · push_cast
      linarith

/-! ## Shifts to the exponent of the format -/

theorem targetExponent_eq (m : ℕ) (e : ℤ) :
    Format.binary64.targetExponent (totalExponent m e) = max ((m.log2 : ℤ) + e - 52) (-1074) := by
  simp only [Format.targetExponent, totalExponent]
  have hbits : (Format.binary64.mantissaBits : ℤ) = 53 := rfl
  have hleast : Format.binary64.minExponent = -1074 := rfl
  rw [hbits, hleast]
  congr 1
  omega

/-- A mantissa of no more than 53 bits is in place already. -/
theorem shiftToTargetExponent_of_lt {m : ℕ} (hm : m < 2 ^ 53) {e : ℤ} (he : -1074 ≤ e) :
    shiftToTargetExponent .binary64 m e .exact = (⟨m, false, false⟩, e) := by
  have hlog : m.log2 ≤ 52 := by
    rcases Nat.eq_zero_or_pos m with rfl | hpos
    · decide
    · exact Nat.le_of_lt_succ ((Nat.log2_lt (Nat.ne_of_gt hpos)).2 hm)
  have hshift : (max ((m.log2 : ℤ) + e - 52) (-1074) - e).toNat = 0 := by omega
  rw [shiftToTargetExponent, targetExponent_eq, shiftToExponent, hshift]
  simp only [Nat.cast_zero, add_zero]
  rfl

/-- A mantissa that rounding has carried to 54 bits is halved. -/
theorem shiftToTargetExponent_carry {e : ℤ} (he : -1074 ≤ e) :
    shiftToTargetExponent .binary64 (2 ^ 53) e .exact = (⟨2 ^ 52, false, false⟩, e + 1) := by
  have hshift : (max (((2 ^ 53 : ℕ).log2 : ℤ) + e - 52) (-1074) - e).toNat = 1 := by
    rw [Nat.log2_two_pow]
    omega
  rw [shiftToTargetExponent, targetExponent_eq, shiftToExponent, hshift]
  rfl

/-- **Rounding once**: the mantissa at the exponent of the format, rounded, is the result, carried if it grew to 54
bits. -/
theorem roundWithAccuracy_of_nearest {sign : Sign} {m : ℕ} {e t : ℤ} {accuracy : Accuracy} {x : ℚ}
    (hstands : Stands (ExtendedMantissa.ofMantissaAndAccuracy m accuracy) (x / 2 ^ e))
    (ht : t = max ((m.log2 : ℤ) + e - 52) (-1074)) (he : e ≤ t) {r : ℕ} (hr : Nearest r (x / 2 ^ t)) :
    (∀ hpos : 0 < r, r < 2 ^ 53 → roundWithAccuracy .binary64 sign m e accuracy = .finite sign r t hpos) ∧
      (r = 2 ^ 53 → roundWithAccuracy .binary64 sign m e accuracy = .finite sign (2 ^ 52) (t + 1) (by decide)) := by
  obtain ⟨n, hn⟩ : ∃ n : ℕ, t = e + n := ⟨(t - e).toNat, by omega⟩
  have hleast : -1074 ≤ t := by omega
  have hfirst : shiftToTargetExponent .binary64 m e accuracy =
      (ExtendedMantissa.ofMantissaAndAccuracy m accuracy >>> n, t) := by
    have hshift : (t - e).toNat = n := by omega
    rw [shiftToTargetExponent, targetExponent_eq, ← ht, shiftToExponent, hshift, ← hn]
  have hrounded : (ExtendedMantissa.ofMantissaAndAccuracy m accuracy >>> n).roundedMantissa = r := by
    refine (hstands.shiftRight n).roundedMantissa ?_
    rwa [div_div, ← zpow_natCast, ← zpow_add₀ (by norm_num), ← hn]
  unfold roundWithAccuracy
  rw [hfirst]
  simp only [hrounded]
  constructor
  · intro hpos hlt
    simp only [shiftToTargetExponent_of_lt hlt hleast, Nat.ne_of_gt hpos, dite_false]
  · rintro rfl
    simp only [shiftToTargetExponent_carry hleast]
    rfl

theorem mantissa_ofMantissaAndAccuracy (m : ℕ) : ∀ accuracy : Accuracy,
    (ExtendedMantissa.ofMantissaAndAccuracy m accuracy).mantissa = m
  | .exact => rfl
  | .inexact .lt => rfl
  | .inexact .eq => rfl
  | .inexact .gt => rfl

/-- A value of at least one unit has its first bit where its mantissa has. -/
theorem bounds_of_stands {m : ℕ} {e : ℤ} {accuracy : Accuracy} {x : ℚ}
    (h : Stands (ExtendedMantissa.ofMantissaAndAccuracy m accuracy) (x / 2 ^ e)) :
    (0 < m → (2 : ℚ) ^ ((m.log2 : ℤ) + e) ≤ x) ∧ x < (2 : ℚ) ^ ((m.log2 : ℤ) + 1 + e) := by
  obtain ⟨hlow, hhigh⟩ := h.bounds
  rw [mantissa_ofMantissaAndAccuracy] at hlow hhigh
  have hunit : (0 : ℚ) < 2 ^ e := by positivity
  rw [le_div_iff₀ hunit] at hlow
  rw [div_lt_iff₀ hunit] at hhigh
  constructor
  · intro hpos
    have hlog : ((2 ^ m.log2 : ℕ) : ℚ) ≤ m := by exact_mod_cast Nat.log2_self_le (Nat.ne_of_gt hpos)
    rw [zpow_add₀ (by norm_num), zpow_natCast]
    refine le_trans (mul_le_mul_of_nonneg_right ?_ hunit.le) hlow
    exact_mod_cast hlog
  · have hlog : ((m + 1 : ℕ) : ℚ) ≤ ((2 ^ (m.log2 + 1) : ℕ) : ℚ) := by exact_mod_cast Nat.lt_log2_self (n := m)
    rw [zpow_add₀ (by norm_num), show (m.log2 : ℤ) + 1 = ((m.log2 + 1 : ℕ) : ℤ) by push_cast; ring, zpow_natCast]
    refine lt_of_lt_of_le hhigh (mul_le_mul_of_nonneg_right ?_ hunit.le)
    exact_mod_cast hlog

variable {b : Binary}

/-- A quarter of a unit, in which the ends of intervals are counted. -/
theorem two_zpow_sub_two (k : ℤ) : (2 : ℚ) ^ (k - 2) = 2 ^ k / 4 := by
  rw [zpow_sub₀ (by norm_num)]
  norm_num

/-- The interval in units of the magnitude. -/
theorem contains_bounds {x : ℚ} (h : b.Contains x) :
    ((b.significand : ℚ) - 1 / 2) * 2 ^ b.exponent ≤ x ∧ x ≤ (b.significand + 1 / 2) * 2 ^ b.exponent ∧
      (b.narrow = true → ((b.significand : ℚ) - 1 / 4) * 2 ^ b.exponent ≤ x) := by
  have hunit : (0 : ℚ) < 2 ^ b.exponent := by positivity
  have hweak : (4 * b.significand - if b.narrow then 1 else 2 : ℚ) * 2 ^ (b.exponent - 2) ≤ x ∧
      x ≤ (4 * b.significand + 2) * 2 ^ (b.exponent - 2) := by
    unfold Binary.Contains at h
    simp only at h
    split at h
    · exact h
    · exact ⟨h.1.le, h.2.le⟩
  rw [two_zpow_sub_two] at hweak
  refine ⟨?_, by linarith [hweak.2], fun hnarrow => ?_⟩
  · cases hnarrow : b.narrow <;> rw [hnarrow] at hweak <;> simp only [if_true, Bool.false_eq_true, if_false] at hweak <;>
      linarith [hweak.1]
  · rw [hnarrow, if_pos rfl] at hweak
    linarith [hweak.1]

/-- At its own exponent a magnitude is nearest to the values of its interval. -/
theorem nearest_of_contains {x : ℚ} (h : b.Contains x) : Nearest b.significand (x / 2 ^ b.exponent) := by
  have hunit : (0 : ℚ) < 2 ^ b.exponent := by positivity
  unfold Binary.Contains at h
  simp only [two_zpow_sub_two] at h
  unfold Nearest
  split at h
  · rename_i heven
    rw [if_pos heven, le_div_iff₀ hunit, div_le_iff₀ hunit]
    cases hnarrow : b.narrow <;> rw [hnarrow] at h <;> simp only [if_true, Bool.false_eq_true, if_false] at h <;>
      constructor <;> linarith [h.1, h.2]
  · rename_i hodd
    rw [if_neg hodd, lt_div_iff₀ hunit, div_lt_iff₀ hunit]
    cases hnarrow : b.narrow <;> rw [hnarrow] at h <;> simp only [if_true, Bool.false_eq_true, if_false] at h <;>
      constructor <;> linarith [h.1, h.2]

/-- **A value rounds to the magnitude whose interval holds it.**  Its mantissa must not be too far right, which is only
in doubt where nothing was cut off. -/
theorem roundWithAccuracy_of_contains (hb : b.Canonical) (hpos : 0 < b.significand) (sign : Sign) {m : ℕ} {e : ℤ}
    {accuracy : Accuracy} {x : ℚ}
    (hstands : Stands (ExtendedMantissa.ofMantissaAndAccuracy m accuracy) (x / 2 ^ e))
    (he : e ≤ max ((m.log2 : ℤ) + e - 52) (-1074)) (hx : b.Contains x) :
    roundWithAccuracy .binary64 sign m e accuracy = .finite sign b.significand b.exponent hpos := by
  obtain ⟨hlow, hhigh, hnarrowLow⟩ := contains_bounds hx
  obtain ⟨hfirst, hlast⟩ := bounds_of_stands hstands
  have hunit : (0 : ℚ) < 2 ^ b.exponent := by positivity
  have hbits : (b.significand : ℚ) + 1 ≤ 2 ^ 53 := by exact_mod_cast hb.bits
  obtain ⟨t, ht⟩ : ∃ t, t = max ((m.log2 : ℤ) + e - 52) (-1074) := ⟨_, rfl⟩
  rw [← ht] at he
  -- the last bit of the value is not left of the magnitude's
  have hle : t ≤ b.exponent := by
    refine Int.not_lt.1 fun hlt => ?_
    have hnormal : t = (m.log2 : ℤ) + e - 52 := by
      have := hb.least
      omega
    have hm : 0 < m := by
      refine Nat.pos_of_ne_zero fun hzero => ?_
      rw [hzero, Nat.log2_zero] at hnormal
      omega
    have hpower : (2 : ℚ) ^ (53 + b.exponent) ≤ 2 ^ ((m.log2 : ℤ) + e) :=
      zpow_le_zpow_right₀ (by norm_num) (by omega)
    have hbig := hpower.trans (hfirst hm)
    rw [zpow_add₀ (by norm_num)] at hbig
    norm_num at hbig hbits
    nlinarith
  rcases Int.lt_or_eq_of_le hle with hlt | heq
  · -- it is right of it just below a power of two, where the gap is narrow, and rounding carries
    have hnot : b.exponent ≠ -1074 := by omega
    have hnormal : 2 ^ 52 ≤ b.significand := hb.normal.resolve_left hnot
    have hsmall : x < 2 ^ 53 * 2 ^ t := by
      have hpower : (2 : ℚ) ^ ((m.log2 : ℤ) + 1 + e) ≤ 2 ^ (53 + t) := zpow_le_zpow_right₀ (by norm_num) (by omega)
      have := hlast.trans_le hpower
      rwa [zpow_add₀ (by norm_num)] at this
    have hhalf : ∀ k : ℤ, k ≤ b.exponent - 1 → (2 : ℚ) ^ k ≤ 2 ^ b.exponent / 2 := by
      intro k hk
      have hpower : (2 : ℚ) ^ k ≤ 2 ^ (b.exponent - 1) := zpow_le_zpow_right₀ (by norm_num) hk
      rwa [zpow_sub₀ (by norm_num), zpow_one] at hpower
    have hpowerOfTwo : b.significand = 2 ^ 52 := by
      refine Decidable.byContradiction fun hne => ?_
      have hmore : (2 : ℚ) ^ 52 + 1 ≤ b.significand := by
        have : 2 ^ 52 + 1 ≤ b.significand := by omega
        exact_mod_cast this
      have hbig : ((2 : ℚ) ^ 52 + 1 / 2) * 2 ^ b.exponent ≤ (b.significand - 1 / 2) * 2 ^ b.exponent :=
        mul_le_mul_of_nonneg_right (by linarith) hunit.le
      linarith [hhalf t (by omega)]
    have hnarrow := hnarrowLow (hb.narrow_iff.2 ⟨hpowerOfTwo, hnot⟩)
    have hvalue : (b.significand : ℚ) = 2 ^ 52 := by exact_mod_cast hpowerOfTwo
    rw [hvalue] at hnarrow
    have hnext : t = b.exponent - 1 := by
      refine Decidable.byContradiction fun hne => ?_
      have hpower : (2 : ℚ) ^ t ≤ 2 ^ (b.exponent - 2) := zpow_le_zpow_right₀ (by norm_num) (by omega)
      rw [zpow_sub₀ (by norm_num)] at hpower
      norm_num at hpower hsmall hnarrow
      nlinarith
    have hunit' : (2 : ℚ) ^ t = 2 ^ b.exponent / 2 := by rw [hnext, zpow_sub₀ (by norm_num), zpow_one]
    have hr : Nearest (2 ^ 53) (x / 2 ^ t) := by
      have hpos' : (0 : ℚ) < 2 ^ b.exponent / 2 := by positivity
      rw [Nearest, if_pos (by norm_num), hunit', le_div_iff₀ hpos', div_le_iff₀ hpos']
      rw [hunit'] at hsmall
      push_cast
      constructor <;> nlinarith
    rw [(roundWithAccuracy_of_nearest hstands ht he hr).2 rfl]
    have hexponent : t + 1 = b.exponent := by omega
    congr 1
    exact hpowerOfTwo.symm
  · have hr : Nearest b.significand (x / 2 ^ t) := heq ▸ nearest_of_contains hx
    rw [(roundWithAccuracy_of_nearest hstands ht he hr).1 hpos hb.bits]
    congr 1

end Rounding
end FixedStep
