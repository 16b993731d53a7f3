import FixedStep.Decimal.Layout
import FixedStep.Proofs.Decimal.Nearest
import FixedStep.Proofs.Kernel.Literal
/-!
# Printing — the text of a magnitude reads back

The shortest digits of a magnitude lie in its interval (`contains_shortest`), and every layout spells their value
(`value_ofSpelling_unsigned`).  So the text of a finite number is read as the number (`toFloat_magnitude`).
-/
namespace FixedStep

namespace Binary

/-! ## Comparisons -/

/-- Both sides of a comparison are scaled by the same positive value. -/
theorem compareScaled_scaled (a : ℕ) (i : ℤ) (n : ℕ) (j : ℤ) : ∃ (c : ℚ) (l r : ℕ), 0 < c ∧
    compareScaled a i n j = compare l r ∧ (l : ℚ) = c * (a * 10 ^ i) ∧ (r : ℚ) = c * (n * 2 ^ j) := by
  refine ⟨10 ^ (-i).toNat * 2 ^ (-j).toNat, _, _, by positivity, rfl, ?_, ?_⟩
  · rw [Nat.shiftLeft_eq, Nat.pow_eq, zpow_eq_div (by norm_num) i]
    push_cast
    field_simp
  · rw [Nat.shiftLeft_eq, Nat.pow_eq, zpow_eq_div (by norm_num) j]
    push_cast
    field_simp

theorem compareScaled_isGE {a n : ℕ} {i j : ℤ} :
    (compareScaled a i n j).isGE = true ↔ (n * 2 ^ j : ℚ) ≤ a * 10 ^ i := by
  obtain ⟨c, l, r, hc, hcompare, hl, hr⟩ := compareScaled_scaled a i n j
  rw [hcompare, Nat.isGE_compare, ← @Nat.cast_le ℚ, hl, hr, mul_le_mul_iff_right₀ hc]

theorem compareScaled_isLE {a n : ℕ} {i j : ℤ} :
    (compareScaled a i n j).isLE = true ↔ (a * 10 ^ i : ℚ) ≤ n * 2 ^ j := by
  obtain ⟨c, l, r, hc, hcompare, hl, hr⟩ := compareScaled_scaled a i n j
  rw [hcompare, Nat.isLE_compare, ← @Nat.cast_le ℚ, hl, hr, mul_le_mul_iff_right₀ hc]

theorem compareScaled_isGT {a n : ℕ} {i j : ℤ} :
    (compareScaled a i n j).isGT = true ↔ (n * 2 ^ j : ℚ) < a * 10 ^ i := by
  rw [← not_le, ← compareScaled_isLE]
  cases compareScaled a i n j <;> decide

theorem compareScaled_isLT {a n : ℕ} {i j : ℤ} :
    (compareScaled a i n j).isLT = true ↔ (a * 10 ^ i : ℚ) < n * 2 ^ j := by
  rw [← not_le, ← compareScaled_isGE]
  cases compareScaled a i n j <;> decide

/-- **The test of the digits** is that of the interval. -/
theorem readsBack_iff {b : Binary} (hpos : 0 < b.significand) {d : ℕ} {k : ℤ} :
    b.readsBack d k = true ↔ b.Contains (d * 10 ^ k) := by
  have hlow : ((4 * b.significand - (if b.narrow then 1 else 2) : ℕ) : ℚ) =
      4 * b.significand - if b.narrow then 1 else 2 := by
    split
    · rw [Nat.cast_sub (by omega)]
      push_cast
      rfl
    · rw [Nat.cast_sub (by omega)]
      push_cast
      rfl
  have hhigh : ((4 * b.significand + 2 : ℕ) : ℚ) = 4 * b.significand + 2 := by push_cast; rfl
  unfold readsBack Contains
  simp only
  split
  · rw [Bool.and_eq_true, compareScaled_isGE, compareScaled_isLE, hlow, hhigh]
  · rw [Bool.and_eq_true, compareScaled_isGT, compareScaled_isLT, hlow, hhigh]

/-! ## Digits -/

end Binary

/-- The value of digits with a point. -/
def Digits.value (d : Digits) : ℚ := Nat.ofDigitChars 10 d.digits 0 * 10 ^ (d.point - d.digits.length)

namespace Binary

/-- The zeros at the end of a text, taken off. -/
theorem exists_replicate_zero (cs : List Char) :
    ∃ n, cs = (cs.reverse.dropWhile (· == '0')).reverse ++ List.replicate n '0' := by
  have hsplit := List.takeWhile_append_dropWhile (p := fun c => c == '0') (l := cs.reverse)
  have hzeros : cs.reverse.takeWhile (· == '0') = List.replicate (cs.reverse.takeWhile (· == '0')).length '0' := by
    refine List.eq_replicate_iff.2 ⟨rfl, fun c hc => ?_⟩
    exact beq_iff_eq.1 (List.all_eq_true.1 List.all_takeWhile c hc)
  refine ⟨(cs.reverse.takeWhile (· == '0')).length, ?_⟩
  conv => lhs; rw [← List.reverse_reverse cs, ← hsplit, List.reverse_append, hzeros, List.reverse_replicate]

theorem value_digitsOf (d : ℕ) (k : ℤ) : (digitsOf d k).value = d * 10 ^ k := by
  obtain ⟨n, hn⟩ := exists_replicate_zero (Nat.toDigits 10 d)
  have hvalue := Nat.ofDigitChars_ten_toDigits (n := d)
  have hlength := congrArg List.length hn
  simp only [digitsOf, Digits.value]
  generalize ((Nat.toDigits 10 d).reverse.dropWhile (· == '0')).reverse = ds at hn hlength ⊢
  rw [hn, Nat.ofDigitChars_append, Nat.ofDigitChars_replicate_zero] at hvalue
  rw [List.length_append, List.length_replicate] at hlength
  have hpoint : ((Nat.toDigits 10 d).length : ℤ) + k - ds.length = n + k := by omega
  rw [hpoint, zpow_add₀ (by norm_num), zpow_natCast, ← hvalue]
  push_cast
  ring

/-- The multiple found on a grid lies in the interval. -/
theorem contains_onGrid {tie : Tie} {b : Binary} (hpos : 0 < b.significand) {k : ℤ} {d : ℕ}
    (h : b.onGrid tie k = some d) : b.Contains (d * 10 ^ k) := by
  rw [← readsBack_iff hpos]
  unfold onGrid at h
  simp only at h
  generalize (b.quotient k).1 / (b.quotient k).2 = low at h
  split at h
  · rename_i hlow hhigh
    split at h
    · exact Option.some.inj h ▸ hlow
    · exact Option.some.inj h ▸ hhigh
    · rw [← Option.some.inj h]
      split
      · exact hlow
      · exact hhigh
  · rename_i hlow _
    exact Option.some.inj h ▸ hlow
  · rename_i hhigh
    exact Option.some.inj h ▸ hhigh
  · cases h

theorem value_exactDigits (b : Binary) : b.exactDigits.value = b.value := by
  rw [exactDigits, value_digitsOf, Nat.shiftLeft_eq, Nat.pow_eq, value]
  rcases Int.le_total 0 b.exponent with h | h
  · obtain ⟨n, hn⟩ := Int.eq_ofNat_of_zero_le h
    rw [hn]
    simp
  · obtain ⟨n, hn⟩ : ∃ n : ℕ, b.exponent = -(n : ℤ) := ⟨(-b.exponent).toNat, by omega⟩
    have hmin : min (-(n : ℤ)) 0 = -(n : ℤ) := by omega
    have hten : (10 : ℚ) ^ n = 2 ^ n * 5 ^ n := by rw [← mul_pow]; norm_num
    rw [hn, hmin, zpow_neg, zpow_neg, zpow_natCast, zpow_natCast, hten]
    simp only [neg_neg, Int.toNat_natCast, Int.toNat_neg_natCast, pow_zero, mul_one]
    push_cast
    field_simp

/-- **The shortest digits read back.** -/
theorem contains_shortest (tie : Tie) {b : Binary} (hpos : 0 < b.significand) : b.Contains (b.shortest tie).value := by
  rw [shortest, if_neg hpos.ne']
  simp only
  split
  · rename_i d k hhit
    obtain ⟨n, -, hn⟩ := List.exists_of_findSome?_eq_some hhit
    obtain ⟨d', hd', heq⟩ := Option.map_eq_some_iff.1 hn
    obtain ⟨rfl, rfl⟩ := Prod.mk.inj heq
    rw [value_digitsOf]
    exact contains_onGrid hpos hd'
  · rw [value_exactDigits]
    exact Rounding.contains_value b

end Binary

/-! ## Spellings -/

namespace Decimal

theorem digitsValue_eq (cs : List Char) : digitsValue cs = Nat.ofDigitChars 10 cs 0 := rfl

theorem digitsValue_append_zeros (cs : List Char) (n : ℕ) :
    digitsValue (cs ++ List.replicate n '0') = digitsValue cs * 10 ^ n := by
  rw [digitsValue_eq, Nat.ofDigitChars_append, Nat.ofDigitChars_replicate_zero, Nat.mul_comm, digitsValue_eq]

theorem digitsValue_zeros_append (cs : List Char) (n : ℕ) :
    digitsValue (List.replicate n '0' ++ cs) = digitsValue cs := by
  rw [digitsValue_eq, Nat.ofDigitChars_append, Nat.ofDigitChars_replicate_zero, Nat.mul_zero, digitsValue_eq]

/-- Digits with a point and a fraction. -/
theorem ofSpelling_point (whole fraction : List Char) {tail : List Char} (hwhole : ∀ c ∈ whole, c.isDigit)
    (hfraction : ∀ c ∈ fraction, c.isDigit) (htail : ∀ c ∈ tail.head?, c.isDigit = false) :
    ofSpelling (whole ++ '.' :: (fraction ++ tail)) =
      ⟨digitsValue (whole ++ fraction), exponentValue tail - fraction.length⟩ := by
  have htake : (whole ++ '.' :: (fraction ++ tail)).takeWhile Char.isDigit = whole :=
    takeWhile_digits hwhole (forall_head_cons (by rfl) _)
  rw [ofSpelling]
  simp only [htake, List.drop_left, takeWhile_digits hfraction htail]

/-- Digits without a point. -/
theorem ofSpelling_whole (whole tail : List Char) (hwhole : ∀ c ∈ whole, c.isDigit)
    (htail : ∀ c ∈ tail.head?, c.isDigit = false ∧ c ≠ '.') :
    ofSpelling (whole ++ tail) = ⟨digitsValue whole, exponentValue tail⟩ := by
  have htake : (whole ++ tail).takeWhile Char.isDigit = whole := takeWhile_digits hwhole fun c hc => (htail c hc).1
  rw [ofSpelling]
  simp only [htake, List.drop_left]
  split
  · exact absurd rfl (htail '.' rfl).2
  · rfl

theorem digitsValue_toDigits (n : ℕ) : digitsValue (Nat.toDigits 10 n) = n := Nat.ofDigitChars_ten_toDigits

/-- The exponent part of a layout. -/
theorem exponentValue_scientific (e : ℤ) (plusSign : Bool) :
    exponentValue ('e' :: (if e < 0 then ['-'] else if plusSign then ['+'] else []) ++ Nat.toDigits 10 e.natAbs) = e := by
  have hdigits := Binary.toDigits_areDigits e.natAbs
  by_cases hnegative : e < 0
  · rw [if_pos hnegative]
    change -(digitsValue (Nat.toDigits 10 e.natAbs) : ℤ) = e
    rw [digitsValue_toDigits]
    omega
  · rw [if_neg hnegative]
    have hvalue : (digitsValue (Nat.toDigits 10 e.natAbs) : ℤ) = e := by
      rw [digitsValue_toDigits]
      omega
    cases plusSign with
    | true => exact hvalue
    | false =>
      cases hcs : Nat.toDigits 10 e.natAbs with
      | nil => exact absurd hcs hdigits.nonempty
      | cons c cs =>
        have hc : c.isDigit := hdigits.digits c (hcs ▸ List.mem_cons_self)
        rw [hcs] at hvalue
        -- the first digit is no sign
        change exponentValue ('e' :: c :: cs) = e
        unfold exponentValue
        split
        · rename_i heq
          obtain ⟨-, heq⟩ := List.cons.inj heq
          obtain ⟨rfl, -⟩ := List.cons.inj heq
          cases hc
        · rename_i heq
          obtain ⟨-, heq⟩ := List.cons.inj heq
          obtain ⟨rfl, -⟩ := List.cons.inj heq
          cases hc
        · rename_i heq
          obtain ⟨-, rfl⟩ := List.cons.inj heq
          exact hvalue
        · rename_i heq
          cases heq

variable (layout : Layout) {d : Digits}

theorem value_ofSpelling_plain (hd : Binary.AreDigits d.digits) : (ofSpelling (layout.plain d)).value = d.value := by
  obtain ⟨ds, point⟩ := d
  simp only at hd
  have hnil : ∀ c ∈ ([] : List Char).head?, c.isDigit = false := fun _ h => by cases h
  have hnone : exponentValue [] = 0 := rfl
  have hzeros : ∀ n, ∀ c ∈ List.replicate n '0', c.isDigit := by
    intro n c hc
    rw [(List.mem_replicate.1 hc).2]
    rfl
  unfold Layout.plain
  simp only [Digits.value, ← digitsValue_eq]
  split
  · -- the point stands before the digits
    rename_i hpoint
    obtain ⟨n, hn⟩ : ∃ n : ℕ, point = -(n : ℤ) := ⟨(-point).toNat, by omega⟩
    have hfraction : ∀ c ∈ List.replicate n '0' ++ ds, c.isDigit := fun c hc =>
      (List.mem_append.1 hc).elim (hzeros n c) (hd.digits c)
    have hspelling := ofSpelling_point ['0'] _ (by simp) hfraction hnil
    have hvalue : digitsValue (['0'] ++ (List.replicate n '0' ++ ds)) = digitsValue ds := by
      rw [← List.append_assoc, show ['0'] ++ List.replicate n '0' = List.replicate (n + 1) '0' from rfl,
        digitsValue_zeros_append]
    rw [List.append_nil, hvalue, hnone] at hspelling
    rw [hn, neg_neg, Int.toNat_natCast]
    refine (congrArg value hspelling).trans ?_
    rw [value]
    congr 2
    rw [List.length_append, List.length_replicate]
    push_cast
    ring
  · split
    · -- the point stands behind them
      rename_i hlength
      obtain ⟨n, hn⟩ : ∃ n : ℕ, point = ds.length + (n : ℤ) := ⟨(point - ds.length).toNat, by omega⟩
      have hwhole : ∀ c ∈ ds ++ List.replicate n '0', c.isDigit := fun c hc =>
        (List.mem_append.1 hc).elim (hd.digits c) (hzeros n c)
      have hcount : (point - ds.length).toNat = n := by omega
      have hexponent : point - ds.length = n := by omega
      rw [hcount, hexponent]
      cases layout.pointZero with
      | true =>
        have hspelling := ofSpelling_point _ ['0'] hwhole (by simp) hnil
        have hvalue : digitsValue (ds ++ List.replicate n '0' ++ ['0']) = digitsValue ds * 10 ^ (n + 1) := by
          rw [List.append_assoc, show ['0'] = List.replicate 1 '0' from rfl, List.replicate_append_replicate,
            digitsValue_append_zeros]
        rw [hvalue, hnone] at hspelling
        refine (congrArg value hspelling).trans ?_
        simp only [value, List.length_singleton]
        norm_num
        rw [pow_succ]
        ring
      | false =>
        have hspelling := ofSpelling_whole _ [] hwhole (fun _ h => by cases h)
        rw [digitsValue_append_zeros, hnone] at hspelling
        refine (congrArg value hspelling).trans ?_
        simp [value]
    · -- the point stands among them
      rename_i hpoint hlength
      obtain ⟨n, hn⟩ : ∃ n : ℕ, point = n := ⟨point.toNat, by omega⟩
      have hspelling := ofSpelling_point (ds.take n) (ds.drop n)
        (fun c hc => hd.digits c (List.mem_of_mem_take hc)) (fun c hc => hd.digits c (List.mem_of_mem_drop hc)) hnil
      rw [List.append_nil, List.take_append_drop, hnone] at hspelling
      rw [hn, Int.toNat_natCast]
      refine (congrArg value hspelling).trans ?_
      rw [value]
      congr 2
      change (0 : ℤ) - (ds.drop n).length = n - ds.length
      rw [List.length_drop]
      omega

theorem value_ofSpelling_scientific : ∀ {d : Digits}, Binary.AreDigits d.digits →
    (ofSpelling (layout.scientific d)).value = d.value
  | ⟨[], _⟩, hd => absurd rfl hd.nonempty
  | ⟨[c], point⟩, hd => by
    have hexponent := exponentValue_scientific (point - 1) layout.plusSign
    generalize htail : 'e' :: (if point - 1 < 0 then ['-'] else if layout.plusSign then ['+'] else []) ++
      Nat.toDigits 10 (point - 1).natAbs = tail at hexponent
    have hletter : ∀ d ∈ tail.head?, d.isDigit = false ∧ d ≠ '.' := htail ▸ forall_head_cons (by decide) _
    have hspelling := ofSpelling_whole _ _ hd.digits hletter
    have htext : layout.scientific ⟨[c], point⟩ = [c] ++ tail := by
      rw [← htail]
      rfl
    rw [htext, hspelling, hexponent, value, Digits.value, digitsValue_eq]
    rfl
  | ⟨c :: c' :: cs, point⟩, hd => by
    have hexponent := exponentValue_scientific (point - 1) layout.plusSign
    generalize htail : 'e' :: (if point - 1 < 0 then ['-'] else if layout.plusSign then ['+'] else []) ++
      Nat.toDigits 10 (point - 1).natAbs = tail at hexponent
    have hletter : ∀ d ∈ tail.head?, d.isDigit = false := htail ▸ forall_head_cons (by rfl) _
    obtain ⟨hc, hcs⟩ := List.forall_mem_cons.1 hd.digits
    have hspelling := ofSpelling_point [c] _ (by simp [hc]) hcs hletter
    have htext : layout.scientific ⟨c :: c' :: cs, point⟩ = [c] ++ '.' :: ((c' :: cs) ++ tail) := by
      rw [← htail]
      simp [Layout.scientific]
    rw [htext, hspelling, hexponent, value, Digits.value, digitsValue_eq]
    congr 2
    simp only [List.length_cons]
    push_cast
    ring

/-- **A layout spells the value of the digits.** -/
theorem value_ofSpelling_unsigned (hd : Binary.AreDigits d.digits) : (ofSpelling (layout.unsigned d)).value = d.value := by
  unfold Layout.unsigned
  split
  · exact value_ofSpelling_plain layout hd
  · exact value_ofSpelling_scientific layout hd

/-! ## Where a spelling ends -/

/-- A character that no decimal goes on with. -/
def isBoundary (c : Char) : Bool := !Lexeme.isNameRest c && c != '.'

theorem not_digit_of_boundary {c : Char} (h : isBoundary c) : c.isDigit = false ∧ c ≠ '.' := by
  simp only [isBoundary, Bool.and_eq_true, Bool.not_eq_true', bne_iff_ne] at h
  refine ⟨Bool.eq_false_iff.2 fun hdigit => ?_, h.2⟩
  rw [Lexeme.isNameRest_of_isDigit hdigit] at h
  exact absurd h.1 nofun

theorem exponentRun_boundary {rest : List Char} (h : ∀ c ∈ rest.head?, isBoundary c) : exponentRun rest = 0 := by
  refine exponentRun_of_not_letter fun c hc => ?_
  have hboundary := h c hc
  rintro (rfl | rfl) <;> cases hboundary

/-- A text that begins with a digit and is one decimal, whatever follows it after a boundary. -/
structure IsSpelling (cs : List Char) : Prop where
  first : ∃ c ds, cs = c :: ds ∧ c.isDigit
  run : ∀ rest : List Char, (∀ c ∈ rest.head?, isBoundary c) → run (cs ++ rest) = cs.length

theorem isSpelling_plain (hd : Binary.AreDigits d.digits) : IsSpelling (layout.plain d) := by
  obtain ⟨whole, fraction, hwhole, hfraction, htext⟩ := layout.exists_plain hd
  obtain ⟨c, ds, hfirst⟩ := List.exists_cons_of_ne_nil hwhole.nonempty
  have hc : c.isDigit := hwhole.digits c (hfirst ▸ List.mem_cons_self)
  rcases htext with htext | ⟨-, htext⟩
  · refine ⟨⟨c, ds ++ '.' :: fraction, by rw [htext, hfirst, List.cons_append], hc⟩, fun rest hrest => ?_⟩
    have hrun := run_point hwhole hfraction fun c hc => (not_digit_of_boundary (hrest c hc)).1
    rw [exponentRun_boundary hrest] at hrun
    rw [htext, List.append_assoc, List.cons_append, hrun, List.length_append, List.length_cons]
    omega
  · refine ⟨⟨c, ds, by rw [htext, hfirst], hc⟩, fun rest hrest => ?_⟩
    rw [htext, run_whole hwhole fun c hc => not_digit_of_boundary (hrest c hc), exponentRun_boundary hrest, Nat.add_zero]

/-- The exponent part of a layout goes to its end. -/
theorem exponentRun_scientific (e : ℤ) (plusSign : Bool) {rest : List Char} (hrest : ∀ c ∈ rest.head?, isBoundary c) :
    exponentRun ('e' :: ((if e < 0 then ['-'] else if plusSign then ['+'] else []) ++ Nat.toDigits 10 e.natAbs ++ rest)) =
      ((if e < 0 then ['-'] else if plusSign then ['+'] else []) ++ Nat.toDigits 10 e.natAbs).length + 1 := by
  have hdigits := Binary.toDigits_areDigits e.natAbs
  have hend : ∀ c ∈ rest.head?, c.isDigit = false := fun c hc => (not_digit_of_boundary (hrest c hc)).1
  split
  · rw [List.singleton_append, List.cons_append, exponentRun_sign (.inr rfl) hdigits hend, List.length_cons]
  · split
    · rw [List.singleton_append, List.cons_append, exponentRun_sign (.inl rfl) hdigits hend, List.length_cons]
    · rw [List.nil_append, exponentRun_digits hdigits hend]

theorem isSpelling_scientific : ∀ {d : Digits}, Binary.AreDigits d.digits → IsSpelling (layout.scientific d)
  | ⟨[], _⟩, hd => absurd rfl hd.nonempty
  | ⟨[c], point⟩, hd => by
    refine ⟨⟨c, _, rfl, hd.digits c List.mem_cons_self⟩, fun rest hrest => ?_⟩
    have hexponent := exponentRun_scientific (point - 1) layout.plusSign hrest
    generalize htail : (if point - 1 < 0 then ['-'] else if layout.plusSign then ['+'] else []) ++
      Nat.toDigits 10 (point - 1).natAbs = tail at hexponent
    have hletter : ∀ d ∈ ('e' :: (tail ++ rest)).head?, d.isDigit = false ∧ d ≠ '.' :=
      forall_head_cons (by decide) _
    have htext : layout.scientific ⟨[c], point⟩ = [c] ++ 'e' :: tail := by
      rw [← htail]
      rfl
    have happend : [c] ++ 'e' :: tail ++ rest = [c] ++ 'e' :: (tail ++ rest) := rfl
    rw [htext, happend, run_whole hd hletter, hexponent, List.length_append, List.length_cons (a := 'e')]
  | ⟨c :: c' :: cs, point⟩, hd => by
    obtain ⟨hc, hcs⟩ := List.forall_mem_cons.1 hd.digits
    refine ⟨⟨c, _, rfl, hc⟩, fun rest hrest => ?_⟩
    have hexponent := exponentRun_scientific (point - 1) layout.plusSign hrest
    generalize htail : (if point - 1 < 0 then ['-'] else if layout.plusSign then ['+'] else []) ++
      Nat.toDigits 10 (point - 1).natAbs = tail at hexponent
    have hletter : ∀ d ∈ ('e' :: (tail ++ rest)).head?, d.isDigit = false := forall_head_cons (by rfl) _
    have htext : layout.scientific ⟨c :: c' :: cs, point⟩ = [c] ++ '.' :: ((c' :: cs) ++ 'e' :: tail) := by
      rw [← htail]
      simp [Layout.scientific]
    have hdigits : Binary.AreDigits [c] := ⟨by simp, by simp [hc]⟩
    have hrun := run_point hdigits hcs hletter
    have happend : [c] ++ '.' :: ((c' :: cs) ++ 'e' :: tail) ++ rest =
      [c] ++ '.' :: ((c' :: cs) ++ 'e' :: (tail ++ rest)) := by simp
    rw [htext, happend, hrun, hexponent]
    simp only [List.length_append, List.length_cons, List.length_nil]
    omega

/-- **A layout spells one decimal.** -/
theorem isSpelling_unsigned (hd : Binary.AreDigits d.digits) : IsSpelling (layout.unsigned d) := by
  unfold Layout.unsigned
  split
  · exact isSpelling_plain layout hd
  · exact isSpelling_scientific layout hd

end Decimal

namespace Layout

variable (layout : Layout) {x : Float}

/-- The text of the magnitude of a finite number. -/
def magnitude (x : Float) : List Char := layout.unsigned ((Binary.ofFloat x).shortest layout.tie)

/-- **The text of a magnitude is read as the magnitude.** -/
theorem toFloat_magnitude (hfinite : Binary.isFinite x = true) (hpos : 0 < (Binary.ofFloat x).significand) :
    (Decimal.ofSpelling (layout.magnitude x)).toFloat = Binary.ofParts .positive (Binary.ofFloat x) hpos := by
  refine Decimal.toFloat_of_contains (Binary.canonical_ofFloat hfinite) hpos ?_
  rw [magnitude, Decimal.value_ofSpelling_unsigned layout (Binary.shortest_digits _ _)]
  exact Binary.contains_shortest _ hpos

/-- Zero is read as zero. -/
theorem toFloat_magnitude_zero (hzero : (Binary.ofFloat x).significand = 0) :
    (Decimal.ofSpelling (layout.magnitude x)).toFloat = 0.0 := by
  have hshortest : (Binary.ofFloat x).shortest layout.tie = ⟨['0'], 1⟩ := by rw [Binary.shortest, if_pos hzero]
  have hvalue := Decimal.value_ofSpelling_unsigned layout (d := ⟨['0'], 1⟩) ⟨by simp, by simp⟩
  have hmantissa : (Decimal.ofSpelling (layout.magnitude x)).mantissa = 0 := by
    rw [magnitude, hshortest]
    simp only [Digits.value, Decimal.value] at hvalue
    have hnone : (Nat.ofDigitChars 10 ['0'] 0 : ℚ) = 0 := by norm_num [Nat.ofDigitChars]
    rw [hnone, zero_mul] at hvalue
    exact_mod_cast (mul_eq_zero.1 hvalue).resolve_right (by positivity)
  rw [Decimal.toFloat]
  simp only [hmantissa, true_or, if_true]

/-- **The text of a finite number without a sign is read as the number.** -/
theorem toFloat_magnitude_of_nonneg (hfinite : Binary.isFinite x = true) (hsign : Binary.isNegative x = false) :
    (Decimal.ofSpelling (layout.magnitude x)).toFloat = x := by
  rcases Nat.eq_zero_or_pos (Binary.ofFloat x).significand with hzero | hpos
  · rw [toFloat_magnitude_zero layout hzero, Binary.eq_zero hzero hsign]
  · have hparts := Binary.ofParts_ofFloat hfinite hpos
    rw [Binary.signOf, hsign, if_neg Bool.false_ne_true] at hparts
    rw [toFloat_magnitude layout hfinite hpos, hparts]

/-- **The text of a finite number with a sign is read as the number's negative.** -/
theorem neg_toFloat_magnitude (hfinite : Binary.isFinite x = true) (hsign : Binary.isNegative x = true) :
    Float.neg (Decimal.ofSpelling (layout.magnitude x)).toFloat = x := by
  rcases Nat.eq_zero_or_pos (Binary.ofFloat x).significand with hzero | hpos
  · rw [toFloat_magnitude_zero layout hzero, Binary.eq_neg_zero hzero hsign]
  · have hparts := Binary.ofParts_ofFloat hfinite hpos
    rw [Binary.signOf, hsign, if_pos rfl] at hparts
    rw [toFloat_magnitude layout hfinite hpos, Binary.neg_ofParts (Binary.canonical_ofFloat hfinite)]
    exact hparts

end Layout
end FixedStep
