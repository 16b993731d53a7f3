import FixedStep.Proofs.Overflow
/-!
# Annotation — units stated and units inferred follow one algebra

A unit annotation is evaluated over the names of units, a right-hand side is lowered over the names of values.  Where
the names of a unit stand for constants of these units, lowering it infers the dimension that it states, and both leave
eight bits together (`agrees_of_unitForm`).
-/
namespace FixedStep

/-- **The form of a unit**: numbers and known units, multiplied, divided, and raised to numbers under signs. -/
inductive Expr.UnitForm : Expr → Prop where
  | number (v : Float) (sp : Span) : UnitForm (.number v sp)
  | name {n : String} (sp : Span) {d : Dimension} : Dimension.ofName n = .ok d → UnitForm (.name n sp)
  | plus {e : Expr} (sp : Span) : UnitForm e → UnitForm (.signed .plus e sp)
  | product {l r : Expr} (sp : Span) : UnitForm l → UnitForm r → UnitForm (.binary .mul l r sp)
  | quotient {l r : Expr} (sp : Span) : UnitForm l → UnitForm r → UnitForm (.binary .div l r sp)
  | power {l r : Expr} (sp : Span) {k : Float} : UnitForm l → r.literal? = some k → UnitForm (.binary .pow l r sp)

/-- Every known unit that an expression names is a constant of that unit. -/
def Scope.CarriesUnits (s : Scope) (e : Expr) : Prop :=
  ∀ n ∈ usedIn e, ∀ d, Dimension.ofName n = .ok d → ∃ q, s.find? n = some (.constant q) ∧ q.dimension = d

theorem Dimension.power_eq_ok {a d : Dimension} {k : Float} :
    a.power k = .ok d ↔ a = .one ∧ d = .one ∨ a ≠ .one ∧ a.power k = .ok d := by
  by_cases ha : a = .one
  · subst ha
    have hone : Dimension.one.power k = .ok .one := rfl
    simp [hone, eq_comm]
  · simp [ha]

/-- **What states a dimension has the form of a unit.** -/
theorem Expr.unitForm_of_unit : ∀ {e : Expr} {d : Dimension}, e.unit = .ok d → e.UnitForm
  | .number v sp, _, _ => .number v sp
  | .name n sp, _, h => by
    rw [unit, Checked.ofExcept_eq_ok] at h
    exact .name sp h
  | .signed .plus e sp, _, h => by
    rw [unit] at h
    exact .plus sp (unitForm_of_unit h)
  | .signed .neg e sp, _, h => by
    rw [unit] at h
    exact absurd h refuse_ne_ok
  | .call f args sp, _, h => by
    rw [unit] at h
    exact absurd h refuse_ne_ok
  | .binary op l r sp, _, h => by
    obtain ⟨a, ha, h⟩ := bind_eq_ok.1 h
    have hl := unitForm_of_unit ha
    cases op with
    | add | sub => exact absurd h refuse_ne_ok
    | mul =>
      obtain ⟨b, hb, _⟩ := bind_eq_ok.1 h
      exact .product sp hl (unitForm_of_unit hb)
    | div =>
      obtain ⟨b, hb, _⟩ := bind_eq_ok.1 h
      exact .quotient sp hl (unitForm_of_unit hb)
    | pow =>
      cases hk : r.literal? with
      | some k => exact .power sp hl hk
      | none =>
        simp only [hk] at h
        exact absurd h refuse_ne_ok

namespace Scope

variable {s : Scope}

/-- A number under signs is lowered to a constant of its value. -/
theorem lower_literal : ∀ {e : Expr} {k : Float}, e.literal? = some k →
    ∃ n, s.lower e = .ok (n, .one) ∧ n.constant? = some k
  | .number v sp, _, h => ⟨.const v, rfl, h⟩
  | .signed .neg e sp, _, h => by
    obtain ⟨v, hv, rfl⟩ := Option.map_eq_some_iff.1 h
    obtain ⟨n, hn, hvalue⟩ := lower_literal hv
    exact ⟨.neg n, lower_neg.2 ⟨n, hn, rfl⟩, by rw [Node.constant?, hvalue]; rfl⟩
  | .signed .plus e sp, _, h => by
    obtain ⟨n, hn, hvalue⟩ := lower_literal (e := e) h
    exact ⟨n, hn, hvalue⟩

theorem lower_binary_eq_overflow {op : Operator} {l r : Expr} {sp : Span} :
    s.lower (.binary op l r sp) = .error .overflow ↔ s.lower l = .error .overflow ∨ ∃ ln a, s.lower l = .ok (ln, a) ∧
      (s.lower r = .error .overflow ∨ ∃ rn b, s.lower r = .ok (rn, b) ∧
        operationUnit op (.binary op l r sp) a rn b = .error .overflow) := by
  simp only [lower, bind_eq_overflow, pure_ne_overflow, and_false, exists_false, or_false, Prod.exists]

/-- **A unit and its lowering agree**: the dimension stated is the one inferred, and one overflows where the other
does. -/
structure Agrees (s : Scope) (e : Expr) : Prop where
  value : ∀ d, e.unit = .ok d ↔ ∃ n, s.lower e = .ok (n, d)
  overflow : e.unit = .error .overflow ↔ s.lower e = .error .overflow

/-- Operands of a product or quotient are judged from the left on both sides, and combined in the same way. -/
theorem agrees_combined {op : Operator} {l r : Expr} {sp : Span} {f : Dimension → Dimension → Option Dimension}
    (hunit : (Expr.binary op l r sp).unit = l.unit >>= fun a => r.unit >>= fun b => .ofOption (f a b))
    (hlower : ∀ a n b, operationUnit op (.binary op l r sp) a n b = .ofOption (f a b))
    (hl : s.Agrees l) (hr : s.Agrees r) : s.Agrees (.binary op l r sp) := by
  refine ⟨fun d => ?_, ?_⟩
  · simp only [hunit, bind_eq_ok, lower_binary, hlower, hl.value, hr.value, Checked.ofOption_eq_ok]
    constructor
    · rintro ⟨a, ⟨ln, hln⟩, b, ⟨rn, hrn⟩, h⟩
      exact ⟨_, ln, a, rn, b, hln, hrn, h, rfl⟩
    · rintro ⟨_, ln, a, rn, b, hln, hrn, h, -⟩
      exact ⟨a, ⟨ln, hln⟩, b, ⟨rn, hrn⟩, h⟩
  · simp only [hunit, bind_eq_overflow, lower_binary_eq_overflow, hlower, hl.value, hr.value, hl.overflow, hr.overflow,
      Checked.ofOption_eq_overflow]
    refine or_congr_right ⟨?_, ?_⟩
    · rintro ⟨a, ⟨ln, hln⟩, h⟩
      refine ⟨ln, a, hln, h.imp_right ?_⟩
      rintro ⟨b, ⟨rn, hrn⟩, hf⟩
      exact ⟨rn, b, hrn, hf⟩
    · rintro ⟨ln, a, hln, h⟩
      refine ⟨a, ⟨ln, hln⟩, h.imp_right ?_⟩
      rintro ⟨rn, b, hrn, hf⟩
      exact ⟨b, ⟨rn, hrn⟩, hf⟩

/-- The exponent is read off the expression on one side and off what it is lowered to on the other. -/
theorem agrees_power {l r : Expr} {sp : Span} {k : Float} (hk : r.literal? = some k) (hl : s.Agrees l) :
    s.Agrees (.binary .pow l r sp) := by
  obtain ⟨n, hn, hvalue⟩ := lower_literal (s := s) hk
  have hunit : (Expr.binary .pow l r sp).unit = l.unit >>= fun a => Checked.ofExcept (a.power k) := by
    simp only [Expr.unit, hk]
  refine ⟨fun d => ?_, ?_⟩
  · simp only [hunit, bind_eq_ok, lower_binary, hl.value, Checked.ofExcept_eq_ok, operationUnit_pow, hn]
    constructor
    · rintro ⟨a, ⟨ln, hln⟩, h⟩
      refine ⟨_, ln, a, n, .one, hln, rfl, ⟨rfl, (Dimension.power_eq_ok.1 h).imp_right ?_⟩, rfl⟩
      rintro ⟨ha, h⟩
      exact ⟨ha, k, hvalue, h⟩
    · rintro ⟨_, ln, a, rn, b, hln, hrn, ⟨-, h⟩, -⟩
      obtain ⟨rfl, rfl⟩ := Prod.mk.inj (Except.ok.inj hrn)
      refine ⟨a, ⟨ln, hln⟩, Dimension.power_eq_ok.2 (h.imp_right ?_)⟩
      rintro ⟨ha, k', hk', h⟩
      obtain rfl := Option.some.inj (hvalue.symm.trans hk')
      exact ⟨ha, h⟩
  · simp only [hunit, bind_eq_overflow, lower_binary_eq_overflow, hl.overflow, Checked.ofExcept_ne_overflow,
      operationUnit_eq_overflow, hn, reduceCtorEq, false_and, or_self, and_false, exists_false]

/-- **A unit agrees with its lowering.** -/
theorem agrees_of_unitForm {e : Expr} (he : e.UnitForm) (hs : s.CarriesUnits e) : s.Agrees e := by
  induction he with
  | number v sp =>
    refine ⟨fun d => ⟨fun h => ⟨.const v, by rw [← Except.ok.inj h]; rfl⟩, ?_⟩, nofun, nofun⟩
    rintro ⟨n, h⟩
    rw [← (Prod.mk.inj (Except.ok.inj h)).2]
    rfl
  | @name n sp d hname =>
    obtain ⟨q, hq, rfl⟩ := hs n List.mem_cons_self d hname
    have hunit : (Expr.name n sp).unit = .ok q.dimension := by rw [Expr.unit, hname]; rfl
    have hlower : s.lower (.name n sp) = .ok (.const q.value, q.dimension) := by rw [lower, lowerName, hq]
    constructor
    · intro d
      simp [hunit, hlower]
    · simp [hunit, hlower]
  | @plus e sp he ih =>
    have ih := ih hs
    exact ⟨ih.value, ih.overflow⟩
  | product sp hl hr ihl ihr =>
    refine agrees_combined rfl (fun _ _ _ => rfl) (ihl fun n hn => ?_) (ihr fun n hn => ?_)
    · exact hs n (List.mem_append_left _ hn)
    · exact hs n (List.mem_append_right _ hn)
  | quotient sp hl hr ihl ihr =>
    refine agrees_combined rfl (fun _ _ _ => rfl) (ihl fun n hn => ?_) (ihr fun n hn => ?_)
    · exact hs n (List.mem_append_left _ hn)
    · exact hs n (List.mem_append_right _ hn)
  | power sp hl hk ih => exact agrees_power hk (ih fun n hn => hs n (List.mem_append_left _ hn))

/-- **Annotations and inference use one algebra.**  Lowering an expression whose units are constants infers the
dimension that it states, if it states one; and a unit overflows exactly where its lowering does. -/
theorem lower_unit {s : Scope} {e : Expr} (hs : s.CarriesUnits e) :
    (∀ d, e.unit = .ok d → ∃ n, s.lower e = .ok (n, d)) ∧
    (e.UnitForm → (∀ d, e.unit = .ok d ↔ ∃ n, s.lower e = .ok (n, d)) ∧
      (e.unit = .error .overflow ↔ s.lower e = .error .overflow)) := by
  refine ⟨fun d h => ?_, fun he => ?_⟩
  · exact ((agrees_of_unitForm (Expr.unitForm_of_unit h) hs).value d).1 h
  · have hagrees := agrees_of_unitForm he hs
    exact ⟨hagrees.value, hagrees.overflow⟩

/-- Constants that carry their units. -/
def carrier : Scope where
  stateVariables := []
  constants := .ofList [("kilometre", ⟨1000.0, ⟨1, 0, 0, 0, 0, 0, 0⟩⟩), ("s", ⟨1.0, .time⟩)]
  functions := .empty

/-- `kilometre / +s ** -exponent` -/
def perPower (exponent : Float) : Expr :=
  .binary .div (.name "kilometre" ⟨0, 9⟩)
    (.signed .plus
      (.binary .pow (.name "s" ⟨13, 14⟩) (.signed .neg (.number exponent ⟨19, 20⟩) ⟨18, 20⟩) ⟨13, 20⟩) ⟨12, 20⟩)
    ⟨0, 20⟩

/-- The product of that with itself. -/
def squared (exponent : Float) : Expr := .binary .mul (perPower exponent) (perPower exponent) ⟨0, 43⟩

theorem carriesUnits_squared (exponent : Float) : carrier.CarriesUnits (squared exponent) := by
  have hkilometre : Dimension.ofName "kilometre" = .ok ⟨1, 0, 0, 0, 0, 0, 0⟩ := rfl
  have hs : Dimension.ofName "s" = .ok .time := rfl
  have hnames : ∀ n ∈ usedIn (squared exponent), n = "kilometre" ∨ n = "s" := by simp [squared, perPower, usedIn]
  intro n hn d hd
  rcases hnames n hn with rfl | rfl
  · exact ⟨_, rfl, Except.ok.inj (hkilometre.symm.trans hd)⟩
  · exact ⟨_, rfl, Except.ok.inj (hs.symm.trans hd)⟩

theorem unitForm_squared (exponent : Float) : (squared exponent).UnitForm := by
  have hform : (perPower exponent).UnitForm :=
    .quotient _ (.name _ (d := ⟨1, 0, 0, 0, 0, 0, 0⟩) rfl) (.plus _ (.power _ (.name _ (d := .time) rfl) rfl))
  exact .product _ hform hform

/-- Squared, a second power fits and a hundredth does not, on either side. -/
theorem lower_unit_squared : carrier.CarriesUnits (squared 2.0) ∧ carrier.CarriesUnits (squared 100.0) ∧
    (squared 2.0).unit = .ok ⟨2, 0, 4, 0, 0, 0, 0⟩ ∧
    (∃ n, carrier.lower (squared 2.0) = .ok (n, ⟨2, 0, 4, 0, 0, 0, 0⟩)) ∧
    (squared 100.0).UnitForm ∧ (squared 100.0).unit = .error .overflow ∧
    carrier.lower (squared 100.0) = .error .overflow := by
  have hvalue : (squared 2.0).unit = .ok ⟨2, 0, 4, 0, 0, 0, 0⟩ := rfl
  have hoverflow : (squared 100.0).unit = .error .overflow := rfl
  have hsmall := carriesUnits_squared 2.0
  have hlarge := carriesUnits_squared 100.0
  have hform := unitForm_squared 100.0
  exact ⟨hsmall, hlarge, hvalue, (lower_unit hsmall).1 _ hvalue, hform, hoverflow,
    ((lower_unit hlarge).2 hform).2.1 hoverflow⟩

end Scope
end FixedStep
