import FixedStep.Fault
/-!
# Fault — when a computation has a value, and when it overflows

A computation of several parts has a value when each part has one, and it overflows where the first part without a
value does.
-/
namespace FixedStep

theorem bind_eq_ok {ε α β : Type} {x : Except ε α} {f : α → Except ε β} {b : β} :
    (x >>= f) = .ok b ↔ ∃ a, x = .ok a ∧ f a = .ok b := by
  cases x with
  | error e => exact ⟨nofun, nofun⟩
  | ok a => exact ⟨fun h => ⟨a, rfl, h⟩, fun ⟨_, h, h'⟩ => Except.ok.inj h ▸ h'⟩

theorem pure_eq_ok {ε α : Type} {a b : α} : (pure a : Except ε α) = .ok b ↔ a = b := by
  constructor
  · intro h
    exact Except.ok.inj h
  · rintro rfl
    rfl

theorem refuse_ne_ok {ε α : Type} {cause : ε} {a : α} : (refuse cause : Checked ε α) ≠ .ok a := nofun

/-- A refusal on a condition leaves what comes after it where the condition fails. -/
theorem ite_refuse_eq_ok {ε α β : Type} {p : Prop} [Decidable p] {cause : ε} {next : β → Checked ε α}
    {x : Checked ε α} {a : α} : (if p then refuse cause >>= next else x) = .ok a ↔ ¬ p ∧ x = .ok a := by
  by_cases h : p
  · rw [if_pos h]
    exact ⟨nofun, fun h' => absurd h h'.1⟩
  · rw [if_neg h]
    exact ⟨fun h' => ⟨h, h'⟩, And.right⟩

theorem bind_eq_overflow {ε α β : Type} {x : Checked ε α} {f : α → Checked ε β} :
    (x >>= f) = .error .overflow ↔ x = .error .overflow ∨ ∃ a, x = .ok a ∧ f a = .error .overflow := by
  cases x with
  | error e =>
    refine ⟨fun h => .inl (congrArg _ (Except.error.inj h)), ?_⟩
    rintro (h | ⟨a, h, -⟩)
    · exact congrArg _ (Except.error.inj h)
    · cases h
  | ok a =>
    refine ⟨fun h => .inr ⟨a, rfl, h⟩, ?_⟩
    rintro (h | ⟨b, h, hb⟩)
    · cases h
    · exact Except.ok.inj h ▸ hb

theorem refuse_ne_overflow {ε α : Type} {cause : ε} : (refuse cause : Checked ε α) ≠ .error .overflow := nofun

theorem pure_ne_overflow {ε α : Type} {a : α} : (pure a : Checked ε α) ≠ .error .overflow := nofun

namespace Checked

theorem ofOption_eq_ok {ε α : Type} {x : Option α} {a : α} :
    (ofOption x : Checked ε α) = .ok a ↔ x = some a := by
  cases x with
  | none => exact ⟨nofun, nofun⟩
  | some b => exact ⟨fun h => congrArg some (Except.ok.inj h), fun h => congrArg Except.ok (Option.some.inj h)⟩

theorem ofExcept_eq_ok {ε α : Type} {x : Except ε α} {a : α} : ofExcept x = .ok a ↔ x = .ok a := by
  cases x with
  | error e => exact ⟨nofun, nofun⟩
  | ok b => exact ⟨fun h => congrArg Except.ok (Except.ok.inj h), fun h => congrArg Except.ok (Except.ok.inj h)⟩

theorem mapRefusal_eq_ok {ε δ α : Type} {f : ε → δ} {x : Checked ε α} {a : α} :
    x.mapRefusal f = .ok a ↔ x = .ok a := by
  rcases x with (_ | _) | b
  · exact ⟨nofun, nofun⟩
  · exact ⟨nofun, nofun⟩
  · exact ⟨fun h => congrArg Except.ok (Except.ok.inj h), fun h => congrArg Except.ok (Except.ok.inj h)⟩

theorem ofOption_eq_overflow {ε α : Type} {x : Option α} :
    (ofOption x : Checked ε α) = .error .overflow ↔ x = none := by
  cases x with
  | none => exact ⟨fun _ => rfl, fun _ => rfl⟩
  | some a => exact ⟨nofun, nofun⟩

theorem ofExcept_ne_overflow {ε α : Type} {x : Except ε α} : (ofExcept x : Checked ε α) ≠ .error .overflow := by
  cases x with
  | error e => nofun
  | ok a => nofun

theorem mapRefusal_eq_overflow {ε δ α : Type} {f : ε → δ} {x : Checked ε α} :
    x.mapRefusal f = .error .overflow ↔ x = .error .overflow := by
  rcases x with (_ | _) | a
  · exact ⟨nofun, nofun⟩
  · exact ⟨fun _ => rfl, fun _ => rfl⟩
  · exact ⟨nofun, nofun⟩

end Checked
end FixedStep
