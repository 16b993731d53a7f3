import FixedStep.Proofs.Kernel.Word
/-!
# Literal — a printed number is one number word

The digits printed for a finite magnitude are one digit at least (`shortest_digits`), and the layout of literals puts a
point or an exponent to them, so that what is printed is one decimal from end to end (`isNumber_magnitudeText`).
-/
namespace FixedStep

/-! ## Digits -/

namespace Binary

/-- One digit or more, and nothing else. -/
structure AreDigits (cs : List Char) : Prop where
  nonempty : cs ≠ []
  digits : ∀ c ∈ cs, c.isDigit

theorem toDigits_areDigits (n : Nat) : AreDigits (Nat.toDigits 10 n) :=
  ⟨Nat.toDigits_ne_nil, fun _ hc => Nat.isDigit_of_mem_toDigits (by decide) (by decide) hc⟩

theorem exists_ne_zero_of_toDigits {n : Nat} (hn : 0 < n) : ∃ c ∈ Nat.toDigits 10 n, c ≠ '0' := by
  refine Decidable.byContradiction fun h => ?_
  have hzeros : ∀ c ∈ Nat.toDigits 10 n, c = '0' := fun c hc => Decidable.byContradiction fun hne => h ⟨c, hc, hne⟩
  have hvalue := Nat.ofDigitChars_ten_toDigits (n := n)
  have hzero : ∀ cs : List Char, (∀ c ∈ cs, c = '0') → Nat.ofDigitChars 10 cs 0 = 0 := by
    intro cs hcs
    induction cs with
    | nil => rfl
    | cons c cs ih =>
      obtain ⟨rfl, hrest⟩ := List.forall_mem_cons.1 hcs
      exact ih hrest
  have := hzero _ hzeros
  omega

theorem digitsOf_areDigits {d : Nat} (hd : 0 < d) (k : Int) : AreDigits (digitsOf d k).digits := by
  obtain ⟨c, hc, hne⟩ := exists_ne_zero_of_toDigits hd
  constructor
  · intro h
    have hnone := List.any_dropWhile (p := fun c => c == '0') (l := (Nat.toDigits 10 d).reverse)
    rw [List.reverse_eq_nil_iff.1 h, List.any_nil] at hnone
    have hall : (Nat.toDigits 10 d).reverse.all (fun c => c == '0') = true := by simpa using hnone
    exact hne (beq_iff_eq.1 (List.all_eq_true.1 hall c (List.mem_reverse.2 hc)))
  · intro c hc
    have hmem := (List.dropWhile_sublist _).mem (List.mem_reverse.1 hc)
    exact (toDigits_areDigits d).digits c (List.mem_reverse.1 hmem)

/-- Zero reads back as no magnitude but zero. -/
theorem readsBack_zero {b : Binary} (hb : 0 < b.significand) (k : Int) : b.readsBack 0 k = false := by
  have hpos : 0 < (4 * b.significand - if b.narrow then 1 else 2) := by split <;> omega
  have hlow : compareScaled 0 k (4 * b.significand - if b.narrow then 1 else 2) (b.exponent - 2) = .lt := by
    rw [compareScaled, Nat.zero_mul, Nat.zero_shiftLeft]
    refine Nat.compare_eq_lt.2 ?_
    rw [Nat.shiftLeft_eq]
    exact Nat.mul_pos (Nat.mul_pos hpos (Nat.pow_pos (by decide))) (Nat.pow_pos (by decide))
  rw [readsBack, hlow]
  split <;> rfl

theorem onGrid_pos {tie : Tie} {b : Binary} (hb : 0 < b.significand) {k : Int} {d : Nat} (h : b.onGrid tie k = some d) :
    0 < d := by
  unfold onGrid at h
  simp only at h
  generalize (b.quotient k).1 / (b.quotient k).2 = low at h
  -- zero reads back as zero, so a candidate that reads back as a positive magnitude is positive
  have hlow : b.readsBack low k = true → 0 < low := by
    intro hread
    refine Nat.pos_of_ne_zero fun hzero => ?_
    rw [hzero, readsBack_zero hb] at hread
    cases hread
  split at h
  · rename_i hread _
    have := hlow hread
    split at h
    · cases h
      exact this
    · cases h
      omega
    · cases h
      split <;> omega
  · rename_i hread _
    cases h
    exact hlow hread
  · cases h
    omega
  · cases h

theorem exactDigits_areDigits {b : Binary} (hb : 0 < b.significand) : AreDigits b.exactDigits.digits := by
  refine digitsOf_areDigits ?_ _
  rw [Nat.shiftLeft_eq]
  exact Nat.mul_pos (Nat.mul_pos hb (Nat.pow_pos (by decide))) (Nat.pow_pos (by decide))

/-- **The digits of a magnitude** are digits, and there is one. -/
theorem shortest_digits (tie : Tie) (b : Binary) : AreDigits (b.shortest tie).digits := by
  unfold shortest
  split
  · exact ⟨by simp, by simp⟩
  · rename_i hne
    have hb : 0 < b.significand := Nat.pos_of_ne_zero hne
    simp only
    split
    · rename_i d k hhit
      obtain ⟨n, -, hn⟩ := List.exists_of_findSome?_eq_some hhit
      obtain ⟨d', hd', heq⟩ := Option.map_eq_some_iff.1 hn
      obtain ⟨rfl, rfl⟩ := Prod.mk.inj heq
      exact digitsOf_areDigits (onGrid_pos hb hd') _
    · exact exactDigits_areDigits hb

end Binary

/-! ## Spellings -/

namespace Decimal

theorem takeWhile_digits {ds rest : List Char} (hds : ∀ c ∈ ds, c.isDigit) (hrest : ∀ c ∈ rest.head?, c.isDigit = false) :
    (ds ++ rest).takeWhile Char.isDigit = ds := by
  rw [List.takeWhile_append_of_pos hds]
  cases rest with
  | nil => rw [List.takeWhile_nil, List.append_nil]
  | cons c rest => rw [List.takeWhile_cons_of_neg (by simp [hrest c rfl]), List.append_nil]

theorem digitRun_append {ds rest : List Char} (hds : ∀ c ∈ ds, c.isDigit)
    (hrest : ∀ c ∈ rest.head?, c.isDigit = false) : digitRun (ds ++ rest) = ds.length := by
  rw [digitRun, takeWhile_digits hds hrest]

theorem exponentRun_of_not_letter {cs : List Char} (h : ∀ c ∈ cs.head?, ¬ (c = 'e' ∨ c = 'E')) :
    exponentRun cs = 0 := by
  cases cs with
  | nil => rfl
  | cons c cs => exact if_neg (h c rfl)

theorem exponentRun_signed {e s : Char} (he : e = 'e' ∨ e = 'E') (hs : s = '+' ∨ s = '-') (cs : List Char) :
    exponentRun (e :: s :: cs) = if digitRun cs = 0 then 0 else digitRun cs + 2 := by
  simp only [exponentRun, if_pos he, if_pos hs]
  cases digitRun cs <;> rfl

theorem exponentRun_unsigned {e : Char} (he : e = 'e' ∨ e = 'E') {cs : List Char}
    (hcs : ∀ c ∈ cs.head?, ¬ (c = '+' ∨ c = '-')) :
    exponentRun (e :: cs) = if digitRun cs = 0 then 0 else digitRun cs + 1 := by
  cases cs with
  | nil =>
    simp only [exponentRun, ite_self]
    rfl
  | cons s cs =>
    simp only [exponentRun, if_pos he, if_neg (hcs s rfl)]
    cases digitRun (s :: cs) <;> rfl

theorem not_sign_of_areDigits {ds : List Char} (hds : Binary.AreDigits ds) (rest : List Char) :
    ∀ c ∈ (ds ++ rest).head?, ¬ (c = '+' ∨ c = '-') := by
  obtain ⟨d, ds, rfl⟩ := List.exists_cons_of_ne_nil hds.nonempty
  have hd := hds.digits d List.mem_cons_self
  exact forall_head_cons (by rintro (rfl | rfl) <;> cases hd) _

theorem exponentRun_sign {s : Char} (hs : s = '+' ∨ s = '-') {ds rest : List Char} (hds : Binary.AreDigits ds)
    (hrest : ∀ c ∈ rest.head?, c.isDigit = false) : exponentRun ('e' :: s :: (ds ++ rest)) = ds.length + 2 := by
  rw [exponentRun_signed (.inl rfl) hs, digitRun_append hds.digits hrest,
    if_neg (mt List.length_eq_zero_iff.1 hds.nonempty)]

theorem exponentRun_digits {ds rest : List Char} (hds : Binary.AreDigits ds)
    (hrest : ∀ c ∈ rest.head?, c.isDigit = false) : exponentRun ('e' :: (ds ++ rest)) = ds.length + 1 := by
  rw [exponentRun_unsigned (.inl rfl) (not_sign_of_areDigits hds rest), digitRun_append hds.digits hrest,
    if_neg (mt List.length_eq_zero_iff.1 hds.nonempty)]

/-- Digits or none, and a point: the fraction and the exponent part go as far as they do. -/
theorem run_pointed {ds : List Char} (hds : ∀ c ∈ ds, c.isDigit) (cs : List Char) : run (ds ++ '.' :: cs) =
    if ds = [] ∧ digitRun cs = 0 then 0
    else ds.length + 1 + (digitRun cs + exponentRun (cs.drop (digitRun cs))) := by
  have hrun : digitRun (ds ++ '.' :: cs) = ds.length := digitRun_append hds (forall_head_cons (by rfl) _)
  rw [run]
  simp only [hrun, List.drop_left, List.length_eq_zero_iff]
  split
  · rfl
  · exact Nat.add_assoc _ _ _

/-- Digits with a point among them, and perhaps an exponent part. -/
theorem run_point {whole fraction tail : List Char} (hwhole : Binary.AreDigits whole)
    (hfraction : ∀ c ∈ fraction, c.isDigit) (htail : ∀ c ∈ tail.head?, c.isDigit = false) :
    run (whole ++ '.' :: (fraction ++ tail)) = whole.length + 1 + fraction.length + exponentRun tail := by
  rw [run_pointed hwhole.digits, if_neg fun h => hwhole.nonempty h.1, digitRun_append hfraction htail, List.drop_left,
    ← Nat.add_assoc]

/-- Digits without a point, and perhaps an exponent part. -/
theorem run_whole {whole tail : List Char} (hwhole : Binary.AreDigits whole)
    (htail : ∀ c ∈ tail.head?, c.isDigit = false ∧ c ≠ '.') : run (whole ++ tail) = whole.length + exponentRun tail := by
  have hrun : digitRun (whole ++ tail) = whole.length := digitRun_append hwhole.digits fun c hc => (htail c hc).1
  rw [run]
  simp only [hrun, List.drop_left]
  split
  · exact absurd rfl (htail '.' rfl).2
  · rw [if_neg (fun h => hwhole.nonempty (List.length_eq_zero_iff.1 h))]

end Decimal

/-- **A text without an exponent** is digits, with a point and a fraction or without. -/
theorem Layout.exists_plain (layout : Layout) {d : Digits} (hd : Binary.AreDigits d.digits) :
    ∃ whole fraction, Binary.AreDigits whole ∧ (∀ c ∈ fraction, c.isDigit) ∧
      (layout.plain d = whole ++ '.' :: fraction ∨ layout.pointZero = false ∧ layout.plain d = whole) := by
  have hzeros : ∀ n, ∀ c ∈ List.replicate n '0', c.isDigit := by
    intro n c hc
    rw [(List.mem_replicate.1 hc).2]
    rfl
  unfold Layout.plain
  split
  · refine ⟨['0'], _, ⟨by simp, by simp⟩, fun c hc => ?_, .inl rfl⟩
    exact (List.mem_append.1 hc).elim (hzeros _ c) (hd.digits c)
  · split
    · have hwhole : Binary.AreDigits (d.digits ++ List.replicate (d.point - d.digits.length).toNat '0') :=
        ⟨by simp [hd.nonempty], fun c hc => (List.mem_append.1 hc).elim (hd.digits c) (hzeros _ c)⟩
      cases hzero : layout.pointZero with
      | true => exact ⟨_, ['0'], hwhole, by simp, .inl rfl⟩
      | false => exact ⟨_, [], hwhole, by simp, .inr ⟨rfl, by simp⟩⟩
    · rename_i hpoint _
      refine ⟨d.digits.take d.point.toNat, d.digits.drop d.point.toNat, ⟨fun h => ?_, fun c hc => ?_⟩, fun c hc => ?_,
        .inl rfl⟩
      · have hlength := congrArg List.length h
        have := List.length_pos_iff.2 hd.nonempty
        rw [List.length_take, List.length_nil] at hlength
        omega
      · exact hd.digits c (List.mem_of_mem_take hc)
      · exact hd.digits c (List.mem_of_mem_drop hc)

/-! ## Number words -/

namespace Kernel
namespace Word

theorem goesOn_append {ys : List Char} (hys : ∀ last, goesOn last ys) : ∀ {xs : List Char} (last : Char),
    (∀ c ∈ xs, c.isDigit ∨ c = '.') → goesOn last (xs ++ ys)
  | [], last, _ => hys last
  | x :: xs, last, h => by
    obtain ⟨hx, hxs⟩ := List.forall_mem_cons.1 h
    rw [List.cons_append, goesOn, goesOn_append hys x hxs, Bool.and_true]
    rcases hx with hx | rfl
    · rw [Lexeme.isNameRest_of_isDigit hx, Bool.true_or, Bool.true_or]
    · rfl

theorem goesOn_digits {xs : List Char} (last : Char) (h : ∀ c ∈ xs, c.isDigit ∨ c = '.') : goesOn last xs := by
  rw [← List.append_nil xs]
  exact goesOn_append (fun _ => rfl) last h

theorem isNumber_point {whole fraction : List Char} (hwhole : Binary.AreDigits whole)
    (hfraction : ∀ c ∈ fraction, c.isDigit) : isNumber (whole ++ '.' :: fraction) := by
  have hnil : ∀ c ∈ ([] : List Char).head?, c.isDigit = false := fun _ h => by cases h
  have hrun := Decimal.run_point hwhole hfraction hnil
  rw [List.append_nil] at hrun
  cases whole with
  | nil => exact absurd rfl hwhole.nonempty
  | cons c whole =>
    have hchars : ∀ d ∈ whole ++ '.' :: fraction, d.isDigit ∨ d = '.' := by
      intro d hd
      rcases List.mem_append.1 hd with hd | hd
      · exact .inl (hwhole.digits d (List.mem_cons_of_mem _ hd))
      · rcases List.mem_cons.1 hd with rfl | hd
        · exact .inr rfl
        · exact .inl (hfraction d hd)
    have hlength : Decimal.run (c :: whole ++ '.' :: fraction) = (c :: whole ++ '.' :: fraction).length := by
      rw [hrun, show Decimal.exponentRun [] = 0 from rfl, List.length_append, List.length_cons (a := '.')]
      omega
    have hc : c.isDigit := hwhole.digits c List.mem_cons_self
    have hpoint : (c :: whole ++ '.' :: fraction).contains '.' := by simp
    rw [List.cons_append] at hlength hpoint ⊢
    rw [isNumber, hc, goesOn_digits c hchars, isDouble, hlength, hpoint]
    simp

theorem isNumber_exponent {mantissa tail : List Char} (hhead : ∃ c cs, mantissa = c :: cs ∧ c.isDigit ∧
    ∀ d ∈ cs, d.isDigit ∨ d = '.') (hgoes : ∀ last, goesOn last ('e' :: tail))
    (hrun : Decimal.run (mantissa ++ 'e' :: tail) = (mantissa ++ 'e' :: tail).length) :
    isNumber (mantissa ++ 'e' :: tail) := by
  obtain ⟨c, cs, rfl, hc, hcs⟩ := hhead
  have hletter : (c :: cs ++ 'e' :: tail).contains 'e' := by simp
  rw [List.cons_append] at hrun hletter ⊢
  rw [isNumber, hc, goesOn_append hgoes c hcs, isDouble, hrun, hletter]
  simp

end Word

def magnitudeText (x : Float) : List Char := literalLayout.unsigned ((Binary.ofFloat x).shortest literalLayout.tie)

theorem isNumber_plain {d : Digits} (hd : Binary.AreDigits d.digits) : Word.isNumber (literalLayout.plain d) := by
  obtain ⟨whole, fraction, hwhole, hfraction, htext | ⟨hpoint, -⟩⟩ := literalLayout.exists_plain hd
  · rw [htext]
    exact Word.isNumber_point hwhole hfraction
  · cases hpoint

/-- A tail that may follow the digits of a number: an exponent part from end to end. -/
structure IsExponent (tail : List Char) : Prop where
  goes : ∀ last, Word.goesOn last ('e' :: tail)
  whole : Decimal.exponentRun ('e' :: tail) = tail.length + 1

theorem isNumber_digit {c : Char} (hc : c.isDigit) {tail : List Char} (htail : IsExponent tail) :
    Word.isNumber ([c] ++ 'e' :: tail) := by
  have hdigits : Binary.AreDigits [c] := ⟨by simp, by simp [hc]⟩
  have hletter : ∀ d ∈ ('e' :: tail).head?, d.isDigit = false ∧ d ≠ '.' := forall_head_cons (by decide) tail
  refine Word.isNumber_exponent ⟨c, [], rfl, hc, by simp⟩ htail.goes ?_
  rw [Decimal.run_whole hdigits hletter, htail.whole, List.length_append, List.length_cons (a := 'e')]

theorem isNumber_pointed {c : Char} (hc : c.isDigit) {cs tail : List Char} (hcs : ∀ d ∈ cs, d.isDigit)
    (htail : IsExponent tail) : Word.isNumber ((c :: '.' :: cs) ++ 'e' :: tail) := by
  have hdigits : Binary.AreDigits [c] := ⟨by simp, by simp [hc]⟩
  refine Word.isNumber_exponent ⟨c, '.' :: cs, rfl, hc, ?_⟩ htail.goes ?_
  · intro d hd
    rcases List.mem_cons.1 hd with rfl | hd
    · exact .inr rfl
    · exact .inl (hcs d hd)
  · have hletter : ∀ d ∈ ('e' :: tail).head?, d.isDigit = false := forall_head_cons (by rfl) tail
    have hrun := Decimal.run_point hdigits hcs hletter
    rw [htail.whole] at hrun
    refine hrun.trans ?_
    simp only [List.length_append, List.length_cons, List.length_nil]
    omega

theorem isExponent_toDigits (n : Nat) (negative : Prop) [Decidable negative] :
    IsExponent ((if negative then ['-'] else []) ++ Nat.toDigits 10 n) := by
  have hdigits := Binary.toDigits_areDigits n
  have hgoes : ∀ last, Word.goesOn last (Nat.toDigits 10 n) := fun last =>
    Word.goesOn_digits last fun c hc => .inl (hdigits.digits c hc)
  have hnil : ∀ c ∈ ([] : List Char).head?, c.isDigit = false := fun _ h => by cases h
  split
  · have hrun := Decimal.exponentRun_sign (.inr rfl) hdigits hnil
    rw [List.append_nil] at hrun
    exact ⟨fun _ => (Bool.and_eq_true _ _).mpr ⟨rfl, (Bool.and_eq_true _ _).mpr ⟨rfl, hgoes _⟩⟩, hrun⟩
  · have hrun := Decimal.exponentRun_digits hdigits hnil
    rw [List.append_nil] at hrun
    exact ⟨fun _ => (Bool.and_eq_true _ _).mpr ⟨rfl, hgoes _⟩, hrun⟩

theorem isNumber_scientific : ∀ {d : Digits}, Binary.AreDigits d.digits → Word.isNumber (literalLayout.scientific d)
  | ⟨[], _⟩, hd => absurd rfl hd.nonempty
  | ⟨[c], point⟩, hd => by
    have htail := isExponent_toDigits (point - 1).natAbs (point - 1 < 0)
    have hnumber := isNumber_digit (hd.digits c List.mem_cons_self) htail
    rwa [← List.cons_append, ← List.append_assoc] at hnumber
  | ⟨c :: c' :: cs, point⟩, hd => by
    have htail := isExponent_toDigits (point - 1).natAbs (point - 1 < 0)
    have hnumber := isNumber_pointed (hd.digits c List.mem_cons_self)
      (fun d hd' => hd.digits d (List.mem_cons_of_mem _ hd')) htail
    rwa [← List.cons_append, ← List.append_assoc] at hnumber

/-- **A printed magnitude is one number word.** -/
theorem isNumber_magnitudeText (x : Float) : Word.isNumber (magnitudeText x) := by
  have hd := Binary.shortest_digits literalLayout.tie (Binary.ofFloat x)
  unfold magnitudeText Layout.unsigned
  split
  · exact isNumber_plain hd
  · exact isNumber_scientific hd

end Kernel
end FixedStep
