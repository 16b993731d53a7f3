import FixedStep.Proofs.Decimal.Nearest
import FixedStep.Proofs.Token.Class
/-!
# Number — the longest number in front of a text

A run of a decimal is a text of the class (`exists_number`) and at least as long as every other in front of the same text
(`run_longest`): a point without digits, or a letter without an exponent, is left to what follows.  Such a text always
reads as a number (`readNumber_of_numberTexts`).
-/
namespace FixedStep
namespace Decimal

open Lexeme

variable {cs ds rest w x : List Char}

theorem exists_digits (cs : List Char) : ∃ ds rest, cs = ds ++ rest ∧ (∀ c ∈ ds, c.isDigit) ∧
    ∀ c ∈ rest.head?, c.isDigit = false := by
  refine ⟨cs.takeWhile Char.isDigit, cs.dropWhile Char.isDigit, List.takeWhile_append_dropWhile.symm,
    List.all_eq_true.1 List.all_takeWhile, fun c hc => ?_⟩
  have hhead := List.head?_dropWhile_not Char.isDigit cs
  rw [Option.mem_def.1 hc] at hhead
  simpa using hhead

theorem digitRun_longest (hds : ∀ c ∈ ds, c.isDigit) (rest : List Char) : ds.length ≤ digitRun (ds ++ rest) := by
  rw [digitRun, List.takeWhile_append_of_pos hds, List.length_append]
  exact Nat.le_add_right _ _

/-! ## Exponent parts -/

/-- **An exponent part in front is no longer than the run.** -/
theorem exponentRun_longest (hx : x ∈ exponentTexts) (rest : List Char) : x.length ≤ exponentRun (x ++ rest) := by
  rcases mem_exponentTexts.1 hx with rfl | ⟨e, ds, he, hds, rfl | ⟨s, hs, rfl⟩⟩
  · exact Nat.zero_le _
  · have hlength := List.length_pos_iff.2 hds.nonempty
    have hrun := digitRun_longest hds.digits rest
    rw [List.cons_append, exponentRun_unsigned (isExponentLetter_iff.1 he) (not_sign_of_areDigits hds rest),
      if_neg (by omega), List.length_cons]
    omega
  · have hlength := List.length_pos_iff.2 hds.nonempty
    have hrun := digitRun_longest hds.digits rest
    rw [List.cons_append, List.cons_append, exponentRun_signed (isExponentLetter_iff.1 he) (isSign_iff.1 hs),
      if_neg (by omega), List.length_cons, List.length_cons]
    omega

/-- **The run of an exponent part is one**, or empty. -/
theorem exists_exponent (cs : List Char) :
    ∃ x rest, cs = x ++ rest ∧ x ∈ exponentTexts ∧ exponentRun cs = x.length := by
  have hnone : exponentRun cs = 0 → ∃ x rest, cs = x ++ rest ∧ x ∈ exponentTexts ∧ exponentRun cs = x.length :=
    fun h => ⟨[], cs, rfl, mem_exponentTexts.2 (.inl rfl), h⟩
  cases cs with
  | nil => exact hnone rfl
  | cons e cs =>
    by_cases he : e = 'e' ∨ e = 'E'
    · have hletter := isExponentLetter_iff.2 he
      by_cases hsign : ∀ c ∈ cs.head?, ¬ (c = '+' ∨ c = '-')
      · obtain ⟨ds, rest, rfl, hds, hrest⟩ := exists_digits cs
        have hrun := exponentRun_unsigned he hsign
        rw [digitRun_append hds hrest] at hrun
        by_cases hne : ds = []
        · exact hnone (by rw [hrun, hne]; rfl)
        · rw [if_neg (mt List.length_eq_zero_iff.1 hne)] at hrun
          exact ⟨e :: ds, rest, rfl, mem_exponentTexts.2 (.inr ⟨e, ds, hletter, ⟨hne, hds⟩, .inl rfl⟩), hrun⟩
      · cases cs with
        | nil => exact absurd nofun hsign
        | cons s cs =>
          have hs : s = '+' ∨ s = '-' := Decidable.not_not.1 fun h => hsign (forall_head_cons h cs)
          obtain ⟨ds, rest, rfl, hds, hrest⟩ := exists_digits cs
          have hrun := exponentRun_signed he hs (ds ++ rest)
          rw [digitRun_append hds hrest] at hrun
          by_cases hne : ds = []
          · exact hnone (by rw [hrun, hne]; rfl)
          · rw [if_neg (mt List.length_eq_zero_iff.1 hne)] at hrun
            exact ⟨e :: s :: ds, rest, rfl,
              mem_exponentTexts.2 (.inr ⟨e, ds, hletter, ⟨hne, hds⟩, .inr ⟨s, isSign_iff.2 hs, rfl⟩⟩), hrun⟩
    · exact hnone (exponentRun_of_not_letter (forall_head_cons he cs))

/-! ## Numbers -/

/-- Digits or none, and no point. -/
theorem run_unpointed (hds : ∀ c ∈ ds, c.isDigit) (hrest : ∀ c ∈ rest.head?, c.isDigit = false ∧ c ≠ '.') :
    run (ds ++ rest) = if ds = [] then 0 else ds.length + exponentRun rest := by
  by_cases hne : ds = []
  · subst hne
    rw [run]
    cases rest with
    | nil => rfl
    | cons c rest =>
      have hc := hrest c rfl
      have hrun : digitRun (c :: rest) = 0 := by
        rw [digitRun, List.takeWhile_cons_of_neg (by simp [hc.1])]
        rfl
      simp only [List.nil_append, hrun, List.drop_zero]
      split
      · rename_i heq
        exact absurd (List.cons.inj heq).1 hc.2
      · rfl
  · rw [run_whole ⟨hne, hds⟩ hrest, if_neg hne]

theorem digitRun_le_run (cs : List Char) : digitRun cs ≤ run cs := by
  obtain ⟨ds, rest, rfl, hds, hrest⟩ := exists_digits cs
  rw [digitRun_append hds hrest]
  by_cases hpoint : ∀ c ∈ rest.head?, c ≠ '.'
  · rw [run_unpointed hds fun c hc => ⟨hrest c hc, hpoint c hc⟩]
    split
    · rename_i hnil
      rw [hnil]
      exact Nat.zero_le _
    · exact Nat.le_add_right _ _
  · cases rest with
    | nil => exact absurd nofun hpoint
    | cons c rest =>
      obtain rfl : c = '.' := by simpa using hpoint
      rw [run_pointed hds]
      split
      · rename_i hnil
        rw [hnil.1]
        exact Nat.zero_le _
      · omega

theorem first_of_exponentTexts (hx : x ∈ exponentTexts) : x = [] ∨ ∃ e cs, isExponentLetter e ∧ x = e :: cs := by
  rcases mem_exponentTexts.1 hx with rfl | ⟨e, ds, he, -, rfl | ⟨s, -, rfl⟩⟩
  · exact .inl rfl
  · exact .inr ⟨e, ds, he, rfl⟩
  · exact .inr ⟨e, s :: ds, he, rfl⟩

theorem not_digit_of_isExponentLetter {e : Char} (he : isExponentLetter e) : e.isDigit = false ∧ e ≠ '.' := by
  rcases isExponentLetter_iff.1 he with rfl | rfl <;> decide

/-- A fraction and an exponent part in front are no longer than their runs. -/
theorem fraction_longest (hds : ∀ c ∈ ds, c.isDigit) (hx : x ∈ exponentTexts) (rest : List Char) :
    ds.length + x.length ≤ digitRun (ds ++ (x ++ rest)) +
      exponentRun ((ds ++ (x ++ rest)).drop (digitRun (ds ++ (x ++ rest)))) := by
  rcases first_of_exponentTexts hx with rfl | ⟨e, cs, he, rfl⟩
  · exact Nat.le_add_right_of_le (digitRun_longest hds _)
  · have hrun := digitRun_append hds (forall_head_cons (not_digit_of_isExponentLetter he).1 (cs ++ rest))
    rw [List.cons_append, hrun, List.drop_left, ← List.cons_append]
    exact Nat.add_le_add_left (exponentRun_longest hx rest) _

/-- **A number in front is no longer than the run.** -/
theorem run_longest (hw : w ∈ numberTexts) (rest : List Char) : w.length ≤ run (w ++ rest) := by
  obtain ⟨whole, x, hwhole, hx, ⟨hne, rfl⟩ | ⟨fraction, hfraction, hne, rfl⟩⟩ := mem_numberTexts.1 hw
  · rcases first_of_exponentTexts hx with rfl | ⟨e, cs, he, rfl⟩
    -- plain digits may go on in `rest` as anything
    · rw [List.append_nil]
      exact (digitRun_longest hwhole rest).trans (digitRun_le_run _)
    · rw [List.append_assoc, List.cons_append,
        run_whole ⟨hne, hwhole⟩ (forall_head_cons (not_digit_of_isExponentLetter he) (cs ++ rest)), ← List.cons_append,
        List.length_append]
      exact Nat.add_le_add_left (exponentRun_longest hx rest) _
  · have hdigits : ¬ (whole = [] ∧ digitRun (fraction ++ (x ++ rest)) = 0) := by
      rintro ⟨rfl, hzero⟩
      have hrun := digitRun_longest hfraction (x ++ rest)
      exact hne ⟨rfl, List.length_eq_zero_iff.1 (by omega)⟩
    have hrun := fraction_longest hfraction hx rest
    rw [List.append_assoc, List.cons_append, List.append_assoc, run_pointed hwhole, if_neg hdigits]
    simp only [List.length_append, List.length_cons]
    omega

/-- **The run is a number**, where there is one. -/
theorem exists_number (h : 0 < run cs) : ∃ w rest, cs = w ++ rest ∧ w ∈ numberTexts ∧ run cs = w.length := by
  obtain ⟨ds, rest, rfl, hds, hrest⟩ := exists_digits cs
  by_cases hpoint : ∀ c ∈ rest.head?, c ≠ '.'
  · have hrun := run_unpointed hds fun c hc => ⟨hrest c hc, hpoint c hc⟩
    split at hrun
    · rw [hrun] at h
      cases h
    · rename_i hne
      obtain ⟨x, rest, rfl, hx, hexponent⟩ := exists_exponent rest
      refine ⟨ds ++ x, rest, (List.append_assoc _ _ _).symm, mem_numberTexts.2 ⟨ds, x, hds, hx, .inl ⟨hne, rfl⟩⟩, ?_⟩
      rw [hrun, hexponent, List.length_append]
  · cases rest with
    | nil => exact absurd nofun hpoint
    | cons c rest =>
      obtain rfl : c = '.' := by simpa using hpoint
      obtain ⟨fraction, tail, rfl, hfraction, htail⟩ := exists_digits rest
      have hrun := run_pointed hds (fraction ++ tail)
      rw [digitRun_append hfraction htail, List.drop_left] at hrun
      split at hrun
      · rw [hrun] at h
        cases h
      · rename_i hne
        obtain ⟨x, rest, rfl, hx, hexponent⟩ := exists_exponent tail
        have hsome : ¬ (ds = [] ∧ fraction = []) := fun hnil => hne ⟨hnil.1, List.length_eq_zero_iff.2 hnil.2⟩
        refine ⟨ds ++ '.' :: (fraction ++ x), rest, by simp,
          mem_numberTexts.2 ⟨ds, x, hds, hx, .inr ⟨fraction, hfraction, hsome, rfl⟩⟩, ?_⟩
        rw [hrun, hexponent, List.length_append, List.length_cons, List.length_append]
        omega

/-! ## Values -/

theorem run_of_numberTexts (hw : w ∈ numberTexts) : run w = w.length := by
  have hlongest := run_longest hw []
  rw [List.append_nil] at hlongest
  obtain ⟨c, cs, rfl, -⟩ := TokenClass.first_of_numberTexts hw
  obtain ⟨v, rest, heq, -, hrun⟩ := exists_number (Nat.lt_of_lt_of_le (Nat.zero_lt_succ _) hlongest)
  have hlength := congrArg List.length heq
  rw [List.length_append] at hlength
  omega

/-- **The text of a number reads as one**, which is neither NaN nor negative. -/
theorem readNumber_of_numberTexts (hw : w ∈ numberTexts) :
    readNumber (String.ofList w) = .ok (ofSpelling w).toFloat ∧ (ofSpelling w).toFloat.isNaN = false ∧
      0.0 ≤ (ofSpelling w).toFloat := by
  obtain ⟨hnan, hsign⟩ := unsigned_toFloat (ofSpelling w)
  refine ⟨?_, hnan, Binary.zero_le hnan hsign⟩
  obtain ⟨c, cs, rfl, hc⟩ := TokenClass.first_of_numberTexts hw
  have hread : readUnsigned (c :: cs) = .ok (ofSpelling (c :: cs)).toFloat :=
    if_pos ⟨List.cons_ne_nil _ _, run_of_numberTexts hw⟩
  rw [readNumber, String.toList_ofList]
  split
  · rename_i heq
    cases heq
  · rename_i heq
    obtain rfl := (List.cons.inj heq).1
    exact absurd hc (by decide)
  · rename_i heq
    obtain rfl := (List.cons.inj heq).1
    exact absurd hc (by decide)
  · exact hread

end Decimal
end FixedStep
