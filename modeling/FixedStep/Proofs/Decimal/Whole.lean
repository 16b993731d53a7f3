import FixedStep.Decimal.Whole
import FixedStep.Proofs.Decimal.Rational
/-!
# Whole — rounding to whole numbers is exact

The whole numbers next to a finite number are numbers themselves, so dropping a fraction or filling it up in naturals
gives what exact arithmetic gives: the nearest integer (`rational?_roundAway`) and the next one up
(`rational?_roundUp`).
-/
namespace FixedStep

/-- The nearest integer, halves away from zero. -/
def nearestAway (q : ℚ) : ℤ := if q < 0 then -⌊1 / 2 - q⌋ else ⌊q + 1 / 2⌋

theorem nearestAway_intCast (z : ℤ) : nearestAway z = z := by
  unfold nearestAway
  split_ifs
  · rw [neg_eq_iff_eq_neg, Int.floor_eq_iff]
    push_cast
    constructor <;> linarith
  · rw [Int.floor_eq_iff]
    constructor <;> linarith

theorem nearestAway_neg {q : ℚ} (hq : 0 ≤ q) : nearestAway (-q) = -⌊q + 1 / 2⌋ := by
  unfold nearestAway
  split_ifs with h
  · rw [sub_neg_eq_add, add_comm]
  · obtain rfl : q = 0 := by linarith
    norm_num

namespace Binary

variable {x : Float} {q : ℚ} {k : ℕ}

theorem rational?_withSignOf {n : ℕ} (hn : n < 2 ^ 53) :
    rational? (withSignOf x n) = some (if isNegative x then -(n : ℚ) else n) := by
  unfold withSignOf
  split_ifs
  · cases n with
    | zero => decide +kernel
    | succ m => exact (rational?_ofInt (n := .negSucc m) hn).trans (by push_cast; rfl)
  · exact rational?_ofInt (n := n) hn

theorem exists_intCast_eq (hexponent : (ofFloat x).exponent = .ofNat k) (h : rational? x = some q) :
    ∃ z : ℤ, q = z := by
  unfold rational? at h
  have hvalue : (ofFloat x).value = ((ofFloat x).significand * 2 ^ k : ℕ) := by
    rw [value, hexponent, Int.ofNat_eq_natCast, zpow_natCast]
    push_cast
    rfl
  rw [hvalue] at h
  split_ifs at h
  · exact ⟨-((ofFloat x).significand * 2 ^ k : ℕ), by rw [← Option.some.inj h, Int.cast_neg, Int.cast_natCast]⟩
  · exact ⟨((ofFloat x).significand * 2 ^ k : ℕ), by rw [← Option.some.inj h, Int.cast_natCast]⟩

/-- A number with a fraction, as a quotient of naturals under its sign. -/
theorem eq_quotient (hexponent : (ofFloat x).exponent = .negSucc k) (h : rational? x = some q) :
    (ofFloat x).significand < 2 ^ 53 ∧ q = if isNegative x then
      -((ofFloat x).significand / (2 ^ (k + 1) : ℕ) : ℚ) else (ofFloat x).significand / (2 ^ (k + 1) : ℕ) := by
  unfold rational? at h
  have hvalue : (ofFloat x).value = (ofFloat x).significand / (2 ^ (k + 1) : ℕ) := by
    rw [value, hexponent, zpow_negSucc, div_eq_mul_inv]
    push_cast
    rfl
  rw [hvalue] at h
  by_cases hfinite : isFinite x = true
  · rw [if_pos hfinite] at h
    exact ⟨(canonical_ofFloat hfinite).bits, (Option.some.inj h).symm⟩
  · rw [if_neg hfinite] at h
    cases h

theorem floor_div_add_half (s k : ℕ) :
    ⌊(s / (2 ^ (k + 1) : ℕ) : ℚ) + 1 / 2⌋ = ((s + 2 ^ k) / 2 ^ (k + 1) : ℕ) := by
  have hsum : (s / (2 ^ (k + 1) : ℕ) : ℚ) + 1 / 2 = ((s + 2 ^ k : ℕ) : ℚ) / (2 ^ (k + 1) : ℕ) := by
    rw [Nat.pow_succ']
    push_cast
    field_simp
  rw [hsum, Rat.floor_natCast_div_natCast]
  rfl

theorem ceil_div {gap : ℕ} (hgap : 0 < gap) (s : ℕ) : ⌈(s / gap : ℚ)⌉ = ((s + (gap - 1)) / gap : ℕ) := by
  have hgap' : (0 : ℚ) < gap := by exact_mod_cast hgap
  have hlow := Nat.div_mul_le_self (s + (gap - 1)) gap
  have hhigh := Nat.lt_mul_div_succ (s + (gap - 1)) hgap
  rw [Nat.mul_comm, Nat.succ_mul] at hhigh
  generalize (s + (gap - 1)) / gap = n at hlow hhigh
  have hbelow : n * gap < s + gap := by omega
  have habove : s ≤ n * gap := by omega
  rw [Int.ceil_eq_iff, Int.cast_natCast, lt_div_iff₀ hgap', div_le_iff₀ hgap', sub_mul, one_mul, sub_lt_iff_lt_add]
  exact ⟨by exact_mod_cast hbelow, by exact_mod_cast habove⟩

/-- **The nearest whole number is computed exactly.** -/
theorem rational?_roundAway (h : rational? x = some q) : rational? (roundAway x) = some (nearestAway q : ℚ) := by
  unfold roundAway
  dsimp only
  split
  · rename_i hexponent
    obtain ⟨z, rfl⟩ := exists_intCast_eq hexponent h
    rw [h, nearestAway_intCast]
  · rename_i k hexponent
    obtain ⟨hbits, hq⟩ := eq_quotient hexponent h
    generalize (ofFloat x).significand = s at hbits hq
    have hfloor := floor_div_add_half s k
    have hbound : (s + 2 ^ k) / 2 ^ (k + 1) < 2 ^ 53 := by
      have hpos : 0 < 2 ^ k := Nat.two_pow_pos k
      refine Nat.div_lt_of_lt_mul ?_
      rw [Nat.pow_succ']
      omega
    rw [Nat.shiftRight_eq_div_pow, Nat.one_shiftLeft, rational?_withSignOf hbound, hq]
    split_ifs
    · rw [nearestAway_neg (by positivity), hfloor, Int.cast_neg, Int.cast_natCast]
    · rw [nearestAway, if_neg (not_lt.2 (by positivity)), hfloor, Int.cast_natCast]

/-- **The next whole number up is computed exactly.** -/
theorem rational?_roundUp (h : rational? x = some q) : rational? (roundUp x) = some (⌈q⌉ : ℚ) := by
  unfold roundUp
  dsimp only
  split
  · rename_i hexponent
    obtain ⟨z, rfl⟩ := exists_intCast_eq hexponent h
    rw [h, Int.ceil_intCast]
  · rename_i k hexponent
    obtain ⟨hbits, hq⟩ := eq_quotient hexponent h
    have hpos : 0 < 2 ^ (k + 1) := Nat.two_pow_pos _
    rw [Nat.shiftRight_eq_div_pow, Nat.one_shiftLeft, hq]
    generalize (ofFloat x).significand = s at hbits
    generalize 2 ^ (k + 1) = gap at hpos
    by_cases hnegative : isNegative x = true
    · have hbound : s / gap < 2 ^ 53 := (Nat.div_le_self s gap).trans_lt hbits
      rw [if_pos hnegative, if_pos hnegative, rational?_withSignOf hbound, if_pos hnegative, Int.ceil_neg,
        Rat.floor_natCast_div_natCast]
      push_cast
      rfl
    · have hbound : (s + (gap - 1)) / gap < 2 ^ 53 := Nat.div_lt_of_lt_mul (by omega)
      rw [if_neg hnegative, if_neg hnegative, rational?_withSignOf hbound, if_neg hnegative, ceil_div hpos,
        Int.cast_natCast]

end Binary
end FixedStep
