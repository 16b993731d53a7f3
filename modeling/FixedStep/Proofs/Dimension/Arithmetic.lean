import FixedStep.Dimension.Power
import FixedStep.Proofs.Decimal.Rational
import FixedStep.Proofs.Dimension
/-!
# Arithmetic — dimensions are computed exactly or not at all

Products, quotients and reciprocals are sums, differences and negatives of integers, and undefined where one of these
leaves eight bits.  A power multiplies every exponent by an integer, and a root undoes that: the root of order `n` is
the dimension whose `n`-th power is given (`root_eq_exact`, `root_iff_power`).
-/
namespace FixedStep
namespace Dimension

open Binary (rational?)

variable {a b c d e : Dimension}

/-! ## Sums and differences of exponents -/

theorem combines_iff {f : Int → Int → Int} : Combines f a b c ↔
    c.metre.toInt = f a.metre.toInt b.metre.toInt ∧ c.kilogram.toInt = f a.kilogram.toInt b.kilogram.toInt ∧
    c.second.toInt = f a.second.toInt b.second.toInt ∧ c.ampere.toInt = f a.ampere.toInt b.ampere.toInt ∧
    c.kelvin.toInt = f a.kelvin.toInt b.kelvin.toInt ∧ c.mole.toInt = f a.mole.toInt b.mole.toInt ∧
    c.candela.toInt = f a.candela.toInt b.candela.toInt := by
  simp only [Combines, exponents, List.map_cons, List.map_nil, List.zipWith_cons_cons, List.zipWith_nil_left,
    List.cons.injEq, and_true]

/-- **A product divided by a factor** is the other factor. -/
theorem div?_of_mul? (h : a.mul? b = some c) : c.div? b = some a := by
  rw [mul?_eq_some, combines_iff] at h
  rw [div?_eq_some, combines_iff]
  omega

theorem mul?_comm (a b : Dimension) : a.mul? b = b.mul? a := by
  refine Option.ext fun c => ?_
  rw [mul?_eq_some, mul?_eq_some, combines_iff, combines_iff]
  omega

def integers (d : Dimension) : List Int := d.exponents.map Int8.toInt

theorem integers_inj : a.integers = b.integers ↔ a = b :=
  (List.map_inj_right fun _ _ => Int8.toInt_inj.1).trans exponents_inj

/-- **Products of three do not depend on the grouping**, where both are defined. -/
theorem mul?_assoc {ab bc l r : Dimension} (hab : a.mul? b = some ab) (hl : ab.mul? c = some l)
    (hbc : b.mul? c = some bc) (hr : a.mul? bc = some r) : l = r := by
  rw [mul?_eq_some, combines_iff] at hab hl hbc hr
  refine integers_inj.1 ?_
  simp only [integers, exponents, List.map_cons, List.map_nil, List.cons.injEq, and_true]
  omega

/-! ## Exponents changed one by one -/

/-- Every exponent goes through a function. -/
def Maps (f : Int → Int) (a d : Dimension) : Prop := d.integers = a.integers.map f

/-- Some exponent leaves eight bits on going through a function. -/
def MapsOut (f : Int → Int) (a : Dimension) : Prop := ∃ e ∈ a.integers, f e < -128 ∨ 127 < f e

theorem zip?_one_eq_some {f : Int → Int} : zip? (fun e _ => f e) a one = some d ↔ Maps f a d := zip?_eq_some

theorem zip?_one_eq_none {f : Int → Int} : zip? (fun e _ => f e) a one = none ↔ MapsOut f a := by
  have hzip : List.zipWith (fun e _ => f e) (a.exponents.map Int8.toInt) (one.exponents.map Int8.toInt) =
      a.integers.map f := rfl
  rw [zip?_eq_none, Leaves, hzip, MapsOut]
  simp only [List.mem_map, exists_exists_and_eq_and]

theorem exists_maps {f : Int → Int} : (∃ d, Maps f a d) ↔ ¬ MapsOut f a := by
  rw [← zip?_one_eq_none, ← Ne, Option.ne_none_iff_exists']
  simp only [zip?_one_eq_some]

theorem recip?_eq_zip? (a : Dimension) : a.recip? = zip? (fun e _ => -e) a one := by
  simp [recip?, div?, zip?, one]

/-- **A reciprocal negates exponents.** -/
theorem recip?_eq_some : a.recip? = some c ↔ Maps (- ·) a c := by
  rw [recip?_eq_zip?, zip?_one_eq_some]

theorem recip?_eq_none : a.recip? = none ↔ MapsOut (- ·) a := by
  rw [recip?_eq_zip?, zip?_one_eq_none]

theorem scale?_eq_some {n : Int} : a.scale? n = some d ↔ Maps (n * ·) a d := by
  simp only [scale?, Int.mul_comm _ n]
  exact zip?_one_eq_some

theorem maps_one {f : Int → Int} (h : f 0 = 0) : Maps f one d ↔ d = one := by
  rw [← integers_inj, Maps]
  simp [integers, exponents, one, h]

/-! ## Powers and roots -/

theorem power_one (k : Float) : one.power k = .ok one := rfl

/-- **Other dimensions than plain numbers are raised to integers of magnitude at most 127**, where every product
fits. -/
theorem power_eq_ok_of_ne_one (ha : a ≠ one) {k : Float} : a.power k = .ok d ↔
    ∃ n : Int, rational? k = some (n : ℚ) ∧ n.natAbs ≤ 127 ∧ Maps (n * ·) a d := by
  have hone : ¬ a.isOne = true := fun h => ha (isOne_iff.1 h)
  simp only [← Binary.integer?_eq_some, ← scale?_eq_some]
  unfold power
  rw [if_neg hone]
  cases integer? k with
  | none => simp
  | some n =>
    by_cases hn : n.natAbs ≤ 127
    · cases hscale : a.scale? n <;> simp [hn, hscale]
    · simp [hn]

theorem power_eq_error {k : Float} {cause : UnitError} (h : a.power k = .error cause) :
    cause = .invalidExponent a k := by
  unfold power at h
  split at h
  · cases h
  · split at h
    · split at h
      · split at h <;> cases h
        rfl
      · cases h
        rfl
    · cases h
      rfl

theorem divides_and_maps_iff {n : Int} (hn : n ≠ 0) :
    (a.exponents.all fun e => e.toInt.tmod n = 0) = true ∧ Maps (·.tdiv n) a d ↔ Maps (n * ·) d a := by
  unfold Maps
  constructor
  · rintro ⟨hall, hd⟩
    have hback : ∀ e ∈ a.integers, n * e.tdiv n = e := by
      intro e he
      obtain ⟨x, hx, rfl⟩ := List.mem_map.1 he
      exact Int.mul_tdiv_cancel_of_tmod_eq_zero (by simpa using List.all_eq_true.1 hall x hx)
    rw [hd, List.map_map]
    exact ((List.map_congr_left hback).trans (List.map_id _)).symm
  · intro ha
    constructor
    · refine List.all_eq_true.2 fun x hx => ?_
      have hx : x.toInt ∈ a.integers := List.mem_map_of_mem hx
      rw [ha] at hx
      obtain ⟨e, -, he⟩ := List.mem_map.1 hx
      exact decide_eq_true (by rw [← he, Int.mul_tmod_right])
    · rw [ha, List.map_map]
      have hback : ∀ e ∈ d.integers, (n * e).tdiv n = e := fun e _ => Int.mul_tdiv_cancel_left e hn
      exact ((List.map_congr_left hback).trans (List.map_id _)).symm

/-- **A root is the dimension that multiplying gives back**: its exponents times the order are those at hand. -/
theorem root_eq_exact {n : Int8} (hn : n ≠ 0) : a.root n = .exact d ↔ Maps (n.toInt * ·) d a := by
  have hnonzero : n.toInt ≠ 0 := fun h => hn (Int8.toInt_inj.1 h)
  constructor
  · intro h
    unfold root at h
    rw [if_neg hn] at h
    split at h
    · cases h
    · split at h
      · rename_i hall
        split at h
        · rename_i hquotients
          cases h
          exact (divides_and_maps_iff hnonzero).1 ⟨hall, zip?_one_eq_some.1 hquotients⟩
        · cases h
      · cases h
  · intro h
    obtain ⟨hall, hquotients⟩ := (divides_and_maps_iff hnonzero).2 h
    -- the least exponent is no product with minus one
    have hfits : ¬ (n = -1 ∧ (-128 : Int8) ∈ a.exponents) := by
      rintro ⟨rfl, hmem⟩
      have hmem : (-128 : Int) ∈ a.integers := List.mem_map_of_mem hmem
      rw [h] at hmem
      obtain ⟨e, he, hproduct⟩ := List.mem_map.1 hmem
      obtain ⟨x, -, rfl⟩ := List.mem_map.1 he
      have hhigh := x.toInt_lt
      have hminus : (-1 : Int8).toInt = -1 := rfl
      rw [hminus] at hproduct
      omega
    rw [root, if_neg hn, if_neg hfits, if_pos hall, zip?_one_eq_some.2 hquotients]

/-- **Roots and powers undo each other**, for orders that powers have. -/
theorem root_iff_power {n : Int8} (hn : n ≠ 0) (hbound : n.toInt.natAbs ≤ 127) :
    a.root n = .exact d ↔ d.power (.ofInt n.toInt) = .ok a := by
  rw [root_eq_exact hn]
  by_cases hd : d = one
  · subst hd
    rw [maps_one (Int.mul_zero _), power_one]
    exact ⟨fun h => by rw [h], fun h => (Except.ok.inj h).symm⟩
  · have hrational : rational? (.ofInt n.toInt) = some (n.toInt : ℚ) := Binary.rational?_ofInt (by omega)
    rw [power_eq_ok_of_ne_one hd, hrational]
    constructor
    · intro h
      exact ⟨n.toInt, rfl, hbound, h⟩
    · rintro ⟨m, hm, -, h⟩
      obtain rfl : n.toInt = m := by exact_mod_cast Option.some.inj hm
      exact h

/-! ## The laws together -/

/-- **How two dimensions combine**: by integers, and not at all where one of them leaves eight bits. -/
structure CombineExactly (a b : Dimension) : Prop where
  product : ∀ c, a.mul? b = some c ↔ Combines (· + ·) a b c
  productUndefined : a.mul? b = none ↔ Leaves (· + ·) a b
  quotient : ∀ c, a.div? b = some c ↔ Combines (· - ·) a b c
  quotientUndefined : a.div? b = none ↔ Leaves (· - ·) a b
  reciprocal : ∀ c, a.recip? = some c ↔ Maps (- ·) a c
  reciprocalUndefined : a.recip? = none ↔ MapsOut (- ·) a
  cancel : ∀ c, a.mul? b = some c → c.div? b = some a
  comm : a.mul? b = b.mul? a
  assoc : ∀ c ab bc l r, a.mul? b = some ab → ab.mul? c = some l → b.mul? c = some bc → a.mul? bc = some r → l = r

/-- **How a dimension is raised to a number**: plain numbers stay plain, and other dimensions have the powers of
integers up to 127 that fit; any other power is refused. -/
structure RaisesExactly (a : Dimension) : Prop where
  accepted : ∀ k, (∃ d, a.power k = .ok d) ↔
    a = one ∨ ∃ n : Int, rational? k = some (n : ℚ) ∧ n.natAbs ≤ 127 ∧ ¬ MapsOut (n * ·) a
  plain : a = one → ∀ k, a.power k = .ok a
  products : ∀ k d, a.power k = .ok d → a ≠ one → ∃ n : Int, rational? k = some (n : ℚ) ∧ Maps (n * ·) a d
  refused : ∀ k, (¬ ∃ d, a.power k = .ok d) → a.power k = .error (.invalidExponent a k)

/-- **How roots and powers of one order are related.** -/
structure RootsUndoPowers (a : Dimension) : Prop where
  power_root : ∀ n : Int8, 1 ≤ n.toInt.natAbs → n.toInt.natAbs ≤ 127 → ∀ r, a.root n = .exact r →
    r.power (.ofInt n.toInt) = .ok a
  root_power : ∀ n : Int8, 1 ≤ n.toInt.natAbs → n.toInt.natAbs ≤ 127 → ∀ e, a.power (.ofInt n.toInt) = .ok e →
    e.root n = .exact a

theorem combineExactly (a b : Dimension) : CombineExactly a b :=
  ⟨fun _ => mul?_eq_some, zip?_eq_none, fun _ => div?_eq_some, zip?_eq_none, fun _ => recip?_eq_some, recip?_eq_none,
    fun _ => div?_of_mul?, mul?_comm a b, fun _ _ _ _ _ => mul?_assoc⟩

theorem raisesExactly (a : Dimension) : RaisesExactly a := by
  by_cases ha : a = one
  · subst ha
    exact ⟨fun k => ⟨fun _ => .inl rfl, fun _ => ⟨one, power_one k⟩⟩, fun _ => power_one, fun _ _ _ h => absurd rfl h,
      fun k h => absurd ⟨one, power_one k⟩ h⟩
  refine ⟨fun k => ?_, fun h => absurd h ha, fun k d h _ => ?_, fun k h => ?_⟩
  · simp only [power_eq_ok_of_ne_one ha, ha, false_or, ← exists_maps]
    constructor
    · rintro ⟨d, n, hn, hbound, hd⟩
      exact ⟨n, hn, hbound, d, hd⟩
    · rintro ⟨n, hn, hbound, d, hd⟩
      exact ⟨d, n, hn, hbound, hd⟩
  · obtain ⟨n, hn, -, hd⟩ := (power_eq_ok_of_ne_one ha).1 h
    exact ⟨n, hn, hd⟩
  · cases hpower : a.power k with
    | ok d => exact absurd ⟨d, hpower⟩ h
    | error cause => rw [power_eq_error hpower]

theorem rootsUndoPowers (a : Dimension) : RootsUndoPowers a := by
  have hne : ∀ n : Int8, 1 ≤ n.toInt.natAbs → n ≠ 0 := by
    rintro n hn rfl
    exact absurd hn (by decide)
  exact ⟨fun n hn hbound r => (root_iff_power (hne n hn) hbound).1,
    fun n hn hbound e => (root_iff_power (hne n hn) hbound).2⟩

/-- **Dimension arithmetic is exact or refused.** -/
theorem arithmetic_exact (a b : Dimension) : CombineExactly a b ∧ RaisesExactly a ∧ RootsUndoPowers a :=
  ⟨combineExactly a b, raisesExactly a, rootsUndoPowers a⟩

/-- At the ends of eight bits: minus one takes 127 there and back, and nothing takes the least exponent. -/
theorem arithmetic_exact_ends :
    let high : Dimension := ⟨127, 0, -64, 0, 0, 0, 0⟩
    let low : Dimension := ⟨-127, 0, 64, 0, 0, 0, 0⟩
    let least : Dimension := ⟨-128, 0, 0, 0, 0, 0, 0⟩
    high.root (-1) = .exact low ∧ low.power (.ofInt (-1)) = .ok high ∧ least.recip? = none ∧
      least.power (.ofInt (-1)) = .error (.invalidExponent least (.ofInt (-1))) := by
  intro high low least
  have hroot : high.root (-1) = .exact low := by decide
  obtain ⟨hleast, hpowers, -⟩ := arithmetic_exact least one
  refine ⟨hroot, (arithmetic_exact high one).2.2.power_root (-1) (by decide) (by decide) low hroot,
    hleast.reciprocalUndefined.2 ⟨-128, by decide, by decide⟩, hpowers.refused _ ?_⟩
  rw [hpowers.accepted]
  rintro (h | ⟨n, hn, -, hfits⟩)
  · exact absurd h (by decide)
  · rw [Binary.rational?_ofInt (by decide)] at hn
    obtain rfl : -1 = n := by exact_mod_cast Option.some.inj hn
    exact hfits ⟨-128, by decide, by decide⟩

end Dimension
end FixedStep
