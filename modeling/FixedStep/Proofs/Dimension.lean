import FixedStep.Dimension.Basic
/-!
# Dimension — exponents as integers

A product or quotient of dimensions is defined exactly where every sum or difference of exponents fits eight bits, and
then its exponents are those integers.
-/
namespace FixedStep
namespace Dimension

theorem exponents_inj {a b : Dimension} : a.exponents = b.exponents ↔ a = b := by
  refine ⟨fun h => ?_, fun h => h ▸ rfl⟩
  cases a
  cases b
  simpa [exponents] using h

theorem fit?_eq_some {n : Int} {e : Int8} : fit? n = some e ↔ e.toInt = n := by
  unfold fit?
  constructor
  · intro h
    split at h
    · rename_i hn
      obtain rfl := Option.some.inj h
      exact Int8.toInt_ofInt_of_le hn.1 (by omega)
    · cases h
  · rintro rfl
    have hlow := e.le_toInt
    have hhigh := e.toInt_lt
    rw [if_pos ⟨by omega, by omega⟩, Int8.ofInt_toInt]

/-- The exponents of a dimension are those of two others, combined one by one. -/
def Combines (f : Int → Int → Int) (a b c : Dimension) : Prop :=
  c.exponents.map Int8.toInt = List.zipWith f (a.exponents.map Int8.toInt) (b.exponents.map Int8.toInt)

theorem zip?_eq_some {f : Int → Int → Int} {a b c : Dimension} : zip? f a b = some c ↔ Combines f a b c := by
  obtain ⟨m, kg, s, amp, k, mol, cd⟩ := c
  simp only [zip?, Combines, exponents, Option.bind_eq_bind, Option.bind_eq_some_iff, fit?_eq_some, List.map_cons,
    List.map_nil, List.zipWith_cons_cons, List.zipWith_nil_left, List.cons.injEq, and_true]
  constructor
  · rintro ⟨m', hm, kg', hkg, s', hs, amp', hamp, k', hk, mol', hmol, cd', hcd, hc⟩
    cases hc
    exact ⟨hm, hkg, hs, hamp, hk, hmol, hcd⟩
  · rintro ⟨hm, hkg, hs, hamp, hk, hmol, hcd⟩
    exact ⟨m, hm, kg, hkg, s, hs, amp, hamp, k, hk, mol, hmol, cd, hcd, rfl⟩

/-- Some exponent of a combination is outside eight bits. -/
def Leaves (f : Int → Int → Int) (a b : Dimension) : Prop :=
  ∃ n ∈ List.zipWith f (a.exponents.map Int8.toInt) (b.exponents.map Int8.toInt), n < -128 ∨ 127 < n

/-- **A combination is undefined** where an exponent of it leaves eight bits. -/
theorem zip?_eq_none {f : Int → Int → Int} {a b : Dimension} : zip? f a b = none ↔ Leaves f a b := by
  constructor
  · intro h
    apply Classical.byContradiction
    intro hfits
    have hfit : ∀ n ∈ List.zipWith f (a.exponents.map Int8.toInt) (b.exponents.map Int8.toInt),
        fit? n = some (Int8.ofInt n) := by
      intro n hn
      have hbounds : ¬ (n < -128 ∨ 127 < n) := fun hout => hfits ⟨n, hn, hout⟩
      exact if_pos (by omega)
    simp only [exponents, List.map_cons, List.map_nil, List.zipWith_cons_cons, List.zipWith_nil_left,
      List.forall_mem_cons] at hfit
    obtain ⟨hm, hkg, hs, hamp, hk, hmol, hcd, -⟩ := hfit
    simp [zip?, hm, hkg, hs, hamp, hk, hmol, hcd] at h
  · rintro ⟨n, hn, hout⟩
    cases h : zip? f a b with
    | none => rfl
    | some c =>
      rw [← show _ = _ from zip?_eq_some.1 h] at hn
      obtain ⟨e, -, rfl⟩ := List.mem_map.1 hn
      have hlow := e.le_toInt
      have hhigh := e.toInt_lt
      omega

/-- **A product adds exponents.** -/
theorem mul?_eq_some {a b c : Dimension} : a.mul? b = some c ↔ Combines (· + ·) a b c := zip?_eq_some

/-- **A quotient subtracts exponents.** -/
theorem div?_eq_some {a b c : Dimension} : a.div? b = some c ↔ Combines (· - ·) a b c := zip?_eq_some

theorem tdiv_fits {e n : Int} (hlow : -128 ≤ e) (hhigh : e ≤ 127) (h : ¬ (n = -1 ∧ e = -128)) :
    -128 ≤ e.tdiv n ∧ e.tdiv n ≤ 127 := by
  have hquotient : (e.tdiv n).natAbs = e.natAbs / n.natAbs := Int.natAbs_tdiv e n
  have hsmaller : e.natAbs / n.natAbs ≤ e.natAbs := Nat.div_le_self _ _
  by_cases hunit : n.natAbs = 1
  · rcases Int.natAbs_eq_iff.1 hunit with rfl | rfl
    · rw [Int.ofNat_one, Int.tdiv_one]
      exact ⟨hlow, hhigh⟩
    · rw [Int.ofNat_one, Int.tdiv_neg, Int.tdiv_one]
      omega
  · have hhalf : e.natAbs / n.natAbs ≤ 64 := by
      rcases Nat.eq_zero_or_pos n.natAbs with hzero | hpos
      · rw [hzero, Nat.div_zero]
        omega
      · have : e.natAbs / n.natAbs ≤ e.natAbs / 2 := Nat.div_le_div_left (by omega) (by omega)
        omega
    omega

/-- **A root overflows** only where the least exponent is divided by minus one. -/
theorem root_eq_overflow {a : Dimension} {n : Int8} :
    a.root n = .overflow ↔ n = -1 ∧ (-128 : Int8) ∈ a.exponents := by
  unfold root
  by_cases hzero : n = 0
  · rw [if_pos hzero]
    refine ⟨nofun, ?_⟩
    rintro ⟨rfl, -⟩
    cases hzero
  rw [if_neg hzero]
  by_cases hleast : n = -1 ∧ (-128 : Int8) ∈ a.exponents
  · rw [if_pos hleast]
    exact ⟨fun _ => hleast, fun _ => rfl⟩
  rw [if_neg hleast]
  refine ⟨fun h => ?_, fun h => absurd h hleast⟩
  split at h
  · split at h
    · cases h
    · rename_i hnone
      obtain ⟨k, hk, hout⟩ := zip?_eq_none.1 hnone
      obtain ⟨e, he, rfl⟩ : ∃ e ∈ a.exponents, k = e.toInt.tdiv n.toInt := by
        simpa [exponents] using hk
      have hallowed : ¬ (n.toInt = -1 ∧ e.toInt = -128) := by
        rintro ⟨hn, hmin⟩
        have hlow : e = -128 := Int8.toInt_inj.1 hmin
        exact hleast ⟨Int8.toInt_inj.1 hn, hlow ▸ he⟩
      have hfits := tdiv_fits e.le_toInt (Int.le_of_lt_add_one e.toInt_lt) hallowed
      omega
  · cases h

theorem isOne_iff {d : Dimension} : d.isOne = true ↔ d = one := beq_iff_eq

end Dimension
end FixedStep
