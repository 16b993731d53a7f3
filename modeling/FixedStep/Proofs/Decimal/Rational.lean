import FixedStep.Proofs.Decimal.Nearest
/-!
# Rational — the rational that a number is

A finite number is a rational, its magnitude under its sign; NaN and the infinities are none (`rational?`).  The integer
read off the bits of a number is that rational where it is one (`integer?_eq_some`), and the integers of 53 bits are
numbers (`rational?_ofInt`).
-/
namespace FixedStep
namespace Binary

/-- **The rational a number is**, if it is finite. -/
def rational? (x : Float) : Option ℚ :=
  if isFinite x then some (if isNegative x then -(ofFloat x).value else (ofFloat x).value) else none

theorem value_nonneg (b : Binary) : 0 ≤ b.value := by
  unfold value
  positivity

theorem toNat?_eq_some {b : Binary} {n : ℕ} : b.toNat? = some n ↔ b.value = n := by
  obtain ⟨s, e, narrow⟩ := b
  unfold toNat? value
  cases e with
  | ofNat k =>
    simp only [Int.ofNat_eq_natCast, zpow_natCast, Option.some.injEq, Nat.shiftLeft_eq]
    norm_cast
  | negSucc k =>
    have hscale : (s * 2 ^ Int.negSucc k : ℚ) = n ↔ s = n * 2 ^ (k + 1) := by
      rw [zpow_negSucc, mul_inv_eq_iff_eq_mul₀ (by positivity)]
      norm_cast
    simp only [hscale, Nat.shiftLeft_eq, Nat.shiftRight_eq_div_pow]
    constructor
    · intro h
      split at h
      · rename_i hexact
        exact Option.some.inj h ▸ hexact.symm
      · cases h
    · rintro rfl
      have hquotient : n * 2 ^ (k + 1) / 2 ^ (k + 1) = n := Nat.mul_div_cancel _ (Nat.two_pow_pos _)
      rw [hquotient, if_pos rfl]

/-- **The integer a number equals** is the rational it is. -/
theorem integer?_eq_some {x : Float} {n : ℤ} : integer? x = some n ↔ rational? x = some (n : ℚ) := by
  unfold integer? rational?
  by_cases hfinite : isFinite x = true
  · have hnonneg := value_nonneg (ofFloat x)
    rw [if_pos hfinite, if_pos hfinite]
    constructor
    · intro h
      obtain ⟨m, hm, rfl⟩ := Option.map_eq_some_iff.1 h
      obtain ⟨m, hvalue, hcast⟩ := Option.bind_eq_some_iff.1 hm
      obtain rfl : (m : ℤ) = _ := Option.some.inj hcast
      rw [toNat?_eq_some.1 hvalue]
      split <;> simp
    · intro h
      have hvalue := Option.some.inj h
      have hnat : (ofFloat x).toNat? = some n.natAbs := by
        rw [toNat?_eq_some, Nat.cast_natAbs, Int.cast_abs, ← hvalue]
        split
        · rw [abs_neg, abs_of_nonneg hnonneg]
        · rw [abs_of_nonneg hnonneg]
      rw [hnat]
      refine congrArg some ?_
      dsimp only
      -- the sign of the number is that of the integer
      cases hnegative : isNegative x <;> rw [hnegative] at hvalue
      · have hsign : 0 ≤ (n : ℚ) := hvalue ▸ hnonneg
        have hsign : 0 ≤ n := by exact_mod_cast hsign
        rw [if_neg Bool.false_ne_true]
        omega
      · have hsign : (n : ℚ) ≤ 0 := hvalue ▸ neg_nonpos.2 hnonneg
        have hsign : n ≤ 0 := by exact_mod_cast hsign
        rw [if_pos rfl]
        omega
  · rw [if_neg hfinite, if_neg hfinite]
    exact ⟨nofun, nofun⟩

/-- **A natural of 53 bits is a number.** -/
theorem ofNat_eq_ofParts {m : ℕ} (hpos : 0 < m) (hm : m < 2 ^ 53) :
    ∃ h : 0 < (ofNat m).significand, Float.ofNat m = ofParts .positive (ofNat m) h := by
  have hsignificand : 0 < (ofNat m).significand := lt_of_lt_of_le (by decide) (ofNat_bits hpos hm).1
  refine ⟨hsignificand, Rounding.ofScientific_of_contains (canonical_ofNat hpos hm) hsignificand hpos false ?_⟩
  have hcontains := Rounding.contains_value (ofNat m)
  rw [value_ofNat hpos hm] at hcontains
  simpa using hcontains

theorem rational?_ofParts {b : Binary} (hb : b.Canonical) (sign : Float.Model.UnpackedFloat.Sign)
    (hpos : 0 < b.significand) :
    rational? (ofParts sign b hpos) = some (match sign with | .negative => -b.value | .positive => b.value) := by
  obtain ⟨hfinite, hofFloat, hsign⟩ := parts_ofParts hb sign hpos
  unfold signOf at hsign
  rw [rational?, if_pos hfinite, hofFloat]
  cases hnegative : isNegative (ofParts sign b hpos) <;> rw [hnegative] at hsign <;> subst hsign <;> rfl

/-- **An integer of 53 bits is a number.** -/
theorem rational?_ofInt {n : ℤ} (hn : n.natAbs < 2 ^ 53) : rational? (Float.ofInt n) = some (n : ℚ) := by
  rcases n with (_ | m) | m
  · decide +kernel
  · obtain ⟨hsignificand, hofNat⟩ := ofNat_eq_ofParts (Nat.succ_pos m) hn
    have hinteger : Float.ofInt (Int.ofNat (m + 1)) = Float.ofNat (m + 1) := rfl
    rw [hinteger, hofNat, rational?_ofParts (canonical_ofNat (Nat.succ_pos m) hn),
      value_ofNat (Nat.succ_pos m) hn]
    rfl
  · obtain ⟨hsignificand, hofNat⟩ := ofNat_eq_ofParts (Nat.succ_pos m) hn
    have hcanonical := canonical_ofNat (Nat.succ_pos m) hn
    have hinteger : Float.ofInt (Int.negSucc m) = Float.neg (Float.ofNat (m + 1)) := rfl
    rw [hinteger, hofNat, neg_ofParts hcanonical, rational?_ofParts hcanonical,
      value_ofNat (Nat.succ_pos m) hn]
    simp

end Binary
end FixedStep
