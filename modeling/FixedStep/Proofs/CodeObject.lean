import FixedStep.CodeObject
import FixedStep.Proofs.Fault
/-!
# CodeObject — what code makes of a snapshot

Interpreted code is always ready; native code is once all its functions have code and it was built.  Ready code answers a
snapshot with its outcome (`CodeObject.outcome`), which for native code is whatever its program answers.  Preparing and
executing never change what code stands for, its equations and its outcomes, and whatever succeeds leaves it ready.

That a program computes what its equations say is not known here.  It is said of code that it does (`Faithful`), or only
that it has an answer wherever its equations have one (`Unfailing`).
-/
namespace FixedStep

namespace Protocol

theorem length_readValues : ∀ {words : List String} {values : List Float}, readValues words = .ok values →
    values.length = words.length
  | [], _, h => by
    cases h
    rfl
  | word :: words, values, h => by
    obtain ⟨first, -, h⟩ := bind_eq_ok.1 h
    obtain ⟨rest, hrest, h⟩ := bind_eq_ok.1 h
    obtain rfl := pure_eq_ok.1 h
    rw [List.length_cons, List.length_cons, length_readValues hrest]

theorem columnsOf_shape {len : Nat} : ∀ {count : Nat} {values : List Float}, values.length = len * count →
    (columnsOf len count values).length = count ∧ ∀ c ∈ columnsOf len count values, c.length = len
  | 0, _, _ => ⟨rfl, nofun⟩
  | count + 1, values, h => by
    rw [Nat.mul_succ] at h
    have hrest : (values.drop len).length = len * count := by
      rw [List.length_drop]
      omega
    obtain ⟨hcount, hlengths⟩ := columnsOf_shape hrest
    refine ⟨congrArg (· + 1) hcount, List.forall_mem_cons.2 ⟨?_, hlengths⟩⟩
    rw [List.length_take]
    omega

/-- **Whatever a program writes**, what is read of it is as many columns as asked for, each with one value for every
element. -/
theorem decodeOutput_shape {output : String} {len count : Nat} {columns : List Column}
    (h : decodeOutput output len count = .ok columns) :
    columns.length = count ∧ ∀ c ∈ columns, c.length = len := by
  unfold decodeOutput at h
  simp only at h
  split at h
  · cases h
  · rename_i hlength
    cases hvalues : readValues (Text.words output) with
    | error e =>
      rw [hvalues] at h
      cases h
    | ok values =>
      rw [hvalues] at h
      obtain rfl := Except.ok.inj h
      exact columnsOf_shape ((length_readValues hvalues).trans (Decidable.not_not.1 hlength))

end Protocol

namespace NativeCode

/-- Every function called has code, and the program was built. -/
structure Ready (c : NativeCode) : Prop where
  complete : c.kernel.missing = []
  built : c.binary.isSome

/-- The place of the program, or the one it is going to be built in. -/
def place (c : NativeCode) : String := c.binary.getD (c.toolchain.place c.kernel.source)

/-- **What the program makes of a snapshot.** -/
def outcome (c : NativeCode) (s : Snapshot) : Except ExecError (NameMap Column) := do
  let columns ← s.columns c.resolved.scope
  c.answer c.place s columns

/-- Code whose program is in its place. -/
structure BuiltFrom (c after : NativeCode) : Prop where
  resolved : after.resolved = c.resolved
  kernel : after.kernel = c.kernel
  toolchain : after.toolchain = c.toolchain
  binary : after.binary = some c.place

theorem BuiltFrom.answer {c after : NativeCode} (h : c.BuiltFrom after) : after.answer = c.answer := by
  funext path s columns
  rw [NativeCode.answer, NativeCode.answer, h.toolchain, h.kernel]

theorem BuiltFrom.outcome {c after : NativeCode} (h : c.BuiltFrom after) : after.outcome = c.outcome := by
  funext s
  rw [NativeCode.outcome, NativeCode.outcome, h.answer, h.resolved, place, h.binary, Option.getD_some]

/-- The program cannot be built, or it is in its place afterwards. -/
theorem ensureBuilt_cases (c : NativeCode) : (∃ e, c.ensureBuilt = (.error e, c)) ∨
    ∃ after, c.ensureBuilt = (.ok c.place, after) ∧ c.BuiltFrom after := by
  unfold ensureBuilt place
  cases hbinary : c.binary with
  | some path => exact .inr ⟨c, rfl, rfl, rfl, rfl, by rw [place, hbinary, Option.getD_some]⟩
  | none =>
    unfold Toolchain.build
    cases c.toolchain.failure with
    | some reason => exact .inl ⟨_, rfl⟩
    | none => exact .inr ⟨_, rfl, rfl, rfl, rfl, by rw [place, hbinary, Option.getD_none]⟩

theorem ensureBuilt_of_built {c : NativeCode} (h : c.binary.isSome) : c.ensureBuilt = (.ok c.place, c) := by
  obtain ⟨path, hpath⟩ := Option.isSome_iff_exists.1 h
  rw [ensureBuilt, place, hpath]
  rfl

theorem checkCapabilities_eq_ok {c : NativeCode} : c.checkCapabilities = .ok () ↔ c.kernel.missing = [] := by
  unfold checkCapabilities
  split
  · rename_i h
    exact ⟨fun _ => h, fun _ => rfl⟩
  · rename_i h
    exact ⟨nofun, fun h' => by cases h.symm.trans h'⟩

end NativeCode

namespace CodeObject

/-- Nothing can fail any more but the input, and a program at its own work. -/
def Ready : CodeObject → Prop
  | interpreted _ => True
  | native c => c.Ready

/-- **What code makes of a snapshot** once it is ready. -/
def outcome : CodeObject → Snapshot → Except ExecError (NameMap Column)
  | interpreted r, s => r.execute s
  | native c, s => c.outcome s

/-- What code stands for. -/
def meaning (c : CodeObject) : Resolved × (Snapshot → Except ExecError (NameMap Column)) := (c.resolved, c.outcome)

/-- **Code that computes what its equations say.** -/
def Faithful (c : CodeObject) : Prop := ∀ s, c.outcome s = c.resolved.execute s

/-- **Code that does not fail at its work**: it has an answer wherever its equations have one. -/
def Unfailing (c : CodeObject) : Prop :=
  ∀ s outputs, c.resolved.execute s = .ok outputs → ∃ outputs', c.outcome s = .ok outputs'

theorem faithful_interpreted (r : Resolved) : (interpreted r).Faithful := fun _ => rfl

theorem Faithful.unfailing {c : CodeObject} (h : c.Faithful) : c.Unfailing := fun s outputs houtputs =>
  ⟨outputs, (h s).trans houtputs⟩

theorem Unfailing.of_meaning {c c' : CodeObject} (hc : c.Unfailing) (h : c'.meaning = c.meaning) : c'.Unfailing := by
  obtain ⟨hresolved, houtcome⟩ := Prod.mk.inj h
  rwa [Unfailing, hresolved, houtcome]

theorem meaning_ensureBuilt (c : NativeCode) : (native c.ensureBuilt.2).meaning = (native c).meaning := by
  rcases c.ensureBuilt_cases with ⟨e, h⟩ | ⟨after, h, hbuilt⟩ <;> rw [h]
  exact Prod.ext hbuilt.resolved hbuilt.outcome

/-! ## Preparing -/

theorem prepare_meaning : ∀ c : CodeObject, c.prepare.2.meaning = c.meaning
  | interpreted _ => rfl
  | native c => by
    rw [prepare, NativeCode.prepare]
    split
    · rfl
    · exact meaning_ensureBuilt c

/-- **Preparing makes code ready**, unless it fails. -/
theorem ready_of_prepare : ∀ {c : CodeObject}, c.prepare.1 = .ok () → c.prepare.2.Ready
  | interpreted _, _ => trivial
  | native c, h => by
    rw [prepare, NativeCode.prepare] at h ⊢
    split at h
    · cases h
    · rename_i hcheck
      rcases c.ensureBuilt_cases with ⟨e, hbuild⟩ | ⟨after, hbuild, hbuilt⟩
      · rw [hbuild] at h
        cases h
      · rw [hbuild]
        exact ⟨hbuilt.kernel ▸ NativeCode.checkCapabilities_eq_ok.1 hcheck, by rw [hbuilt.binary, Option.isSome_some]⟩

theorem prepare_of_ready : ∀ {c : CodeObject}, c.Ready → c.prepare = (.ok (), c)
  | interpreted _, _ => rfl
  | native c, h => by
    rw [prepare, NativeCode.prepare, NativeCode.checkCapabilities_eq_ok.2 h.complete,
      NativeCode.ensureBuilt_of_built h.built]
    rfl

/-! ## Executing -/

theorem execute_meaning (s : Snapshot) : ∀ c : CodeObject, (c.execute s).2.meaning = c.meaning
  | interpreted _ => rfl
  | native c => by
    have hsame := meaning_ensureBuilt c
    rw [execute, NativeCode.execute]
    split
    · rfl
    · split
      · rfl
      · split <;> rename_i hbuild <;> rw [hbuild] at hsame <;> exact hsame

/-- **Ready code answers with its outcome**, and stays as it is. -/
theorem execute_of_ready (s : Snapshot) : ∀ {c : CodeObject}, c.Ready → c.execute s = (c.outcome s, c)
  | interpreted _, _ => rfl
  | native c, h => by
    rw [execute, NativeCode.execute, NativeCode.checkCapabilities_eq_ok.2 h.complete, outcome, NativeCode.outcome]
    cases s.columns c.resolved.scope with
    | error e => rfl
    | ok columns =>
      simp only [NativeCode.ensureBuilt_of_built h.built]
      rfl

/-- An answer is the outcome, whether code was ready or not. -/
theorem execute_eq_ok {s : Snapshot} {outputs : NameMap Column} : ∀ {c : CodeObject},
    (c.execute s).1 = .ok outputs → c.outcome s = .ok outputs
  | interpreted _, h => h
  | native c, h => by
    rw [execute, NativeCode.execute] at h
    split at h
    · cases h
    · rw [outcome, NativeCode.outcome]
      cases hcolumns : s.columns c.resolved.scope with
      | error e =>
        rw [hcolumns] at h
        cases h
      | ok columns =>
        rw [hcolumns] at h
        rcases c.ensureBuilt_cases with ⟨e, hbuild⟩ | ⟨after, hbuild, hbuilt⟩ <;> rw [hbuild] at h
        · cases h
        · exact (congrFun (congrFun (congrFun hbuilt.answer c.place) s) columns).symm.trans h

end CodeObject
end FixedStep
