import FixedStep.Clock
import FixedStep.Proofs.Decimal.Whole
/-!
# StepCount — how many steps a duration takes

Rounding to a whole number is exact in floating point already (`rational?_round`); what exact arithmetic leaves out is
the rounding of quotients, differences and products.  In it the steps counted reach the duration up to the slack, and
one step fewer would not reach it at all (`le_wholeCount`, `wholeCount_sub_one_lt`).  Between two whole numbers the
count turns once from the lower to the upper one, at the end of the lower one's slack or half way, so a longer duration
never takes fewer steps (`wholeCount_mono`).
-/
namespace FixedStep

/-- The exact arithmetic of rationals. -/
instance : DurationArithmetic ℚ where
  one := 1
  slack := 1 / 10 ^ 9
  sub := (· - ·)
  mul := (· * ·)
  div := (· / ·)
  abs x := |x|
  max := max
  round x := nearestAway x
  ceil x := ⌈x⌉
  le x y := x ≤ y
  toCount x := min ⌊x⌋.toNat (2 ^ 64 - 1)

/-- **Rounding a number is rounding the rational it is.** -/
theorem rational?_round {x : Float} {q : ℚ} (h : Binary.rational? x = some q) :
    Binary.rational? (DurationArithmetic.round x) = some (DurationArithmetic.round q) ∧
      Binary.rational? (DurationArithmetic.ceil x) = some (DurationArithmetic.ceil q) :=
  ⟨Binary.rational?_roundAway h, Binary.rational?_roundUp h⟩

/-- What a quotient may be beyond a whole number of steps. -/
def slackOf (n : ℤ) : ℚ := 1 / 10 ^ 9 * max (n : ℚ) 1

/-- The nearest whole number to a quotient that is not negative, halves up. -/
def nearest (x : ℚ) : ℤ := ⌊x + 1 / 2⌋

/-- The whole number of steps that a quotient of durations stands for. -/
def wholeCount (x : ℚ) : ℤ := if |x - nearest x| ≤ slackOf (nearest x) then nearest x else ⌈x⌉

variable {x y : ℚ}

theorem wholeSteps_eq {dt duration : ℚ} (h : 0 ≤ duration / dt) :
    wholeSteps dt duration = wholeCount (duration / dt) := by
  have hround : DurationArithmetic.round (duration / dt) = (nearest (duration / dt) : ℚ) :=
    congrArg Int.cast (if_neg h.not_gt)
  have hunfold : wholeSteps dt duration =
      if decide (|duration / dt - DurationArithmetic.round (duration / dt)| ≤
        1 / 10 ^ 9 * max (DurationArithmetic.round (duration / dt)) 1) then DurationArithmetic.round (duration / dt)
      else (⌈duration / dt⌉ : ℚ) := rfl
  rw [hunfold, hround, wholeCount]
  by_cases hslack : |duration / dt - nearest (duration / dt)| ≤ slackOf (nearest (duration / dt))
  · rw [if_pos hslack]
    exact if_pos (decide_eq_true hslack)
  · rw [if_neg hslack]
    exact if_neg fun hle => hslack (of_decide_eq_true hle)

/-! ## One quotient -/

theorem slackOf_pos (n : ℤ) : 0 < slackOf n := by
  unfold slackOf
  positivity

theorem nearest_le_ceil (x : ℚ) : nearest x ≤ ⌈x⌉ := by
  have hle := Int.le_ceil x
  refine Int.lt_add_one_iff.1 (Int.floor_lt.2 ?_)
  push_cast
  linarith

theorem wholeCount_le_ceil (x : ℚ) : wholeCount x ≤ ⌈x⌉ := by
  unfold wholeCount
  split
  · exact nearest_le_ceil x
  · exact le_rfl

/-- **No step is superfluous**: one fewer does not reach the duration. -/
theorem wholeCount_sub_one_lt (x : ℚ) : (wholeCount x : ℚ) - 1 < x := by
  have hle : (wholeCount x : ℚ) ≤ ⌈x⌉ := by exact_mod_cast wholeCount_le_ceil x
  have hlt := Int.ceil_lt_add_one x
  linarith

/-- **The steps suffice**, up to the slack. -/
theorem le_wholeCount (x : ℚ) : x ≤ wholeCount x + slackOf (wholeCount x) := by
  unfold wholeCount
  split
  · rename_i hslack
    have hle := (abs_le.1 hslack).2
    linarith
  · have hle := Int.le_ceil x
    have hpos := slackOf_pos ⌈x⌉
    linarith

theorem wholeCount_nonneg (hx : 0 ≤ x) : 0 ≤ wholeCount x := by
  unfold wholeCount
  split
  · exact Int.floor_nonneg.2 (by linarith)
  · exact Int.ceil_nonneg hx

theorem nearest_intCast (k : ℤ) : nearest k = k := by
  rw [nearest, Int.floor_eq_iff]
  constructor <;> linarith

/-- **A whole number of steps is counted as it is.** -/
theorem wholeCount_intCast (k : ℤ) : wholeCount k = k := by
  unfold wholeCount
  rw [nearest_intCast, if_pos]
  rw [sub_self, abs_zero]
  exact (slackOf_pos k).le

/-! ## Two quotients -/

/-- Up to the end of a whole number's slack, and half way to the next at most, that whole number is counted. -/
theorem wholeCount_of_slack (hx : (nearest y : ℚ) < x) (hxy : x ≤ y) (hslack : |y - nearest y| ≤ slackOf (nearest y)) :
    wholeCount x = nearest y := by
  have hhalf : y + 1 / 2 < nearest y + 1 := Int.lt_floor_add_one (y + 1 / 2)
  have hnearest : nearest x = nearest y := by
    rw [nearest, Int.floor_eq_iff]
    constructor <;> linarith
  have hclose : |x - nearest y| ≤ |y - nearest y| := by
    rw [abs_of_pos (by linarith), abs_of_pos (by linarith)]
    linarith
  rw [wholeCount, hnearest, if_pos (hclose.trans hslack)]

/-- **A longer duration never takes fewer steps.** -/
theorem wholeCount_mono (hxy : x ≤ y) : wholeCount x ≤ wholeCount y := by
  have hx := wholeCount_le_ceil x
  by_cases hslack : |y - nearest y| ≤ slackOf (nearest y)
  · have hy : wholeCount y = nearest y := if_pos hslack
    -- from the whole number on, the shorter quotient is within its slack too
    rcases le_or_gt x (nearest y) with hbelow | habove
    · rw [hy]
      exact hx.trans (Int.ceil_le.2 hbelow)
    · rw [hy, wholeCount_of_slack habove hxy hslack]
  · have hy : wholeCount y = ⌈y⌉ := if_neg hslack
    rw [hy]
    exact hx.trans (Int.ceil_le_ceil hxy)

/-! ## Counts of 64 bits -/

variable {dt d d' : ℚ}

theorem stepCount_eq (h : 0 ≤ d / dt) : stepCount dt d = min (wholeCount (d / dt)).toNat (2 ^ 64 - 1) := by
  rw [stepCount, wholeSteps_eq h]
  exact congrArg (fun n : ℤ => min n.toNat (2 ^ 64 - 1)) (Int.floor_intCast _)

theorem stepCount_cases (h : 0 ≤ d / dt) (hlt : d / dt < 2 ^ 64) : (stepCount dt d : ℤ) = wholeCount (d / dt) ∨
    stepCount dt d = 2 ^ 64 - 1 ∧ wholeCount (d / dt) = 2 ^ 64 := by
  have hnonneg := wholeCount_nonneg h
  have hle : wholeCount (d / dt) ≤ 2 ^ 64 := by
    refine (wholeCount_le_ceil _).trans (Int.ceil_le.2 ?_)
    push_cast
    exact hlt.le
  rw [stepCount_eq h]
  -- the least count out of range is met in the last step before it only
  omega

/-- **The steps counted suffice and none is superfluous; whole numbers of steps are counted as they are; and a longer
duration never takes fewer steps.** -/
theorem stepCount_exact (hdt : 0 < dt) :
    (∀ d, 0 ≤ d → d / dt < 2 ^ 64 →
      d / dt ≤ stepCount dt d + 1 / 10 ^ 9 * max (stepCount dt d : ℚ) 1 ∧
      (stepCount dt d = 0 ∨ (stepCount dt d : ℚ) - 1 < d / dt)) ∧
    (∀ k : ℕ, k * dt / dt < 2 ^ 64 → stepCount dt (k * dt) = k) ∧
    ∀ d d', 0 ≤ d → d ≤ d' → stepCount dt d ≤ stepCount dt d' := by
  refine ⟨fun d hd hlt => ?_, fun k hk => ?_, fun d d' hd hle => ?_⟩
  · have hquotient : 0 ≤ d / dt := div_nonneg hd hdt.le
    rcases stepCount_cases hquotient hlt with hcount | ⟨hcount, hwhole⟩
    · have hcast : (stepCount dt d : ℚ) = wholeCount (d / dt) := by exact_mod_cast hcount
      rw [hcast]
      exact ⟨le_wholeCount _, .inr (wholeCount_sub_one_lt _)⟩
    · -- the slack of the greatest count is many steps
      have hlast := wholeCount_sub_one_lt (d / dt)
      rw [hwhole] at hlast
      rw [hcount]
      push_cast at hlast ⊢
      constructor
      · refine hlt.le.trans ?_
        norm_num
      · right
        linarith
  · have hquotient : (k : ℚ) * dt / dt = k := mul_div_cancel_right₀ _ hdt.ne'
    have hwhole : wholeCount (k : ℚ) = k := by exact_mod_cast wholeCount_intCast k
    rw [hquotient] at hk
    have hk : k < 2 ^ 64 := by exact_mod_cast hk
    rw [stepCount_eq (by rw [hquotient]; positivity), hquotient, hwhole]
    omega
  · have hquotients : d / dt ≤ d' / dt := div_le_div_of_nonneg_right hle hdt.le
    have hmono := wholeCount_mono hquotients
    have hquotient : 0 ≤ d / dt := div_nonneg hd hdt.le
    rw [stepCount_eq hquotient, stepCount_eq (hquotient.trans hquotients)]
    omega

/-- Steps of a tenth: seven tenths are seven steps, and with a little more than the slack they are eight. -/
theorem stepCount_exact_tenths : (0 : ℚ) < 1 / 10 ∧ stepCount (1 / 10 : ℚ) (7 * (1 / 10)) = 7 ∧
    stepCount (1 / 10 : ℚ) (7 / 10 + 1 / 10 ^ 9) = 8 ∧
    stepCount (1 / 10 : ℚ) (7 / 10) ≤ stepCount (1 / 10 : ℚ) (7 / 10 + 1 / 10 ^ 9) := by
  have hdt : (0 : ℚ) < 1 / 10 := by norm_num
  obtain ⟨hbounds, hwhole, hmono⟩ := stepCount_exact hdt
  refine ⟨hdt, ?_, ?_, hmono _ _ (by norm_num) (by norm_num)⟩
  · exact_mod_cast hwhole 7 (by norm_num)
  · obtain ⟨hsuffices, hleast⟩ := hbounds (7 / 10 + 1 / 10 ^ 9) (by norm_num) (by norm_num)
    generalize stepCount (1 / 10 : ℚ) (7 / 10 + 1 / 10 ^ 9) = n at hsuffices hleast
    have hlow : 7 < n := by
      refine Nat.lt_of_not_le fun hle => ?_
      have hle : (n : ℚ) ≤ 7 := by exact_mod_cast hle
      have hmax : max (n : ℚ) 1 ≤ 7 := max_le hle (by norm_num)
      linarith
    have hhigh : n < 9 := by
      rcases hleast with rfl | hleast
      · decide
      · have : (n : ℚ) < 9 := by linarith
        exact_mod_cast this
    omega

end FixedStep
