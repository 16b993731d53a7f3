import FixedStep.Proofs.History
import FixedStep.Proofs.Protocol
/-!
# Failure — a run that fails has done nothing

Unless a program that was built fails at its work, what can stop a run is known before its first tick: a duration that is
no number of steps, and, when ticks are due, the first group with an obstacle, which is a function without code or a
compiler that fails (`failure_run`).  A run that is stopped leaves the clock, every state, every kept state and every
monitor as they are (`run_allOrNothing`).
-/
namespace FixedStep

/-! ## What keeps code from being made ready -/

/-- The first function without code, or else the reason of the compiler; a program that was built needs no compiler. -/
def NativeCode.obstacle? (c : NativeCode) : Option ExecError :=
  match c.kernel.missing with
  | f :: _ => some (.notImplemented f .native)
  | [] => if c.binary.isSome then none else c.toolchain.failure.map .toolchain

/-- Interpreted code has no obstacle. -/
def CodeObject.obstacle? : CodeObject → Option ExecError
  | interpreted _ => none
  | native c => c.obstacle?

def Group.obstacle? (g : Group) : Option NetworkError := g.code.obstacle?.map (.execution g.name)

/-- The obstacle of the first group that has one. -/
def Network.obstacle? (n : Network) : Option NetworkError := n.groups.findSome? Group.obstacle?

theorem NativeCode.prepare_failure (c : NativeCode) :
    c.prepare.1 = match c.obstacle? with | some e => .error e | none => .ok () := by
  unfold prepare checkCapabilities obstacle? ensureBuilt Toolchain.build
  cases c.kernel.missing with
  | cons f fs => rfl
  | nil =>
    cases c.binary with
    | some path => rfl
    | none => cases c.toolchain.failure <;> rfl

theorem CodeObject.prepare_failure : ∀ c : CodeObject,
    c.prepare.1 = match c.obstacle? with | some e => .error e | none => .ok ()
  | interpreted _ => rfl
  | native c => c.prepare_failure

theorem Group.prepare_failure (g : Group) :
    g.prepare.1 = match g.obstacle? with | some e => .error e | none => .ok () := by
  have hcode := g.code.prepare_failure
  unfold prepare obstacle?
  rw [show g.code.prepare = (g.code.prepare.1, g.code.prepare.2) from rfl, hcode]
  cases g.code.obstacle? <;> rfl

namespace Network

/-- **Preparing stops at the first obstacle.** -/
theorem prepareGroups_failure : ∀ gs : List Group, (prepareGroups gs).2 = gs.findSome? Group.obstacle?
  | [] => rfl
  | g :: gs => by
    have hg := g.prepare_failure
    rw [prepareGroups, List.findSome?_cons]
    split <;> rename_i heq <;> rw [heq] at hg
    · cases hobstacle : g.obstacle? <;> rw [hobstacle] at hg <;> cases hg
      rfl
    · cases hobstacle : g.obstacle? <;> rw [hobstacle] at hg
      · exact prepareGroups_failure gs
      · cases hg

/-! ## What stops a run -/

/-- **Why a run over a duration is refused**, if it is: known from the clock and the code of the groups alone. -/
def refusal? (n : Network) (duration : Float) : Option NetworkError :=
  match n.clock.stepsFor duration with
  | .error e => some (.clock e)
  | .ok 0 => none
  | .ok (_ + 1) => n.obstacle?

/-- **No tick fails**: a run fails for what it is refused for, and for nothing else. -/
theorem failure_run {n : Network} (hn : n.Sound) (hcode : n.Unfailing) (d : Float) :
    (n.run d).failure = n.refusal? d := by
  unfold refusal?
  cases hk : n.clock.stepsFor d with
  | error e => rw [run, hk]
  | ok k =>
    cases k with
    | zero => exact failure_of_prepared hn hcode hk fun hpos => absurd hpos (Nat.lt_irrefl 0)
    | succ k =>
      have hobstacle : (prepareGroups n.groups).2 = n.obstacle? := prepareGroups_failure n.groups
      cases hfailure : (prepareGroups n.groups).2 with
      | none => exact (failure_of_prepared hn hcode hk fun _ => hfailure).trans (hfailure.symm.trans hobstacle)
      | some e =>
        unfold run
        simp only [hk, if_pos (Nat.succ_pos k), hfailure]
        exact hfailure.symm.trans hobstacle

/-- A run without ticks prepares nothing. -/
theorem code_run_of_zero {n : Network} {d : Float} (hk : n.clock.stepsFor d = .ok 0) :
    (n.run d).network.groups.map (·.code) = n.groups.map (·.code) := by
  rw [run_eq_ticks hk fun hpos => absurd hpos (Nat.lt_irrefl 0)]
  change (n.begun 0).groups.map (·.code) = n.groups.map (·.code)
  rw [begun, if_neg (Nat.lt_irrefl 0)]
  unfold captureAtStart
  split
  · rw [List.map_map]
    rfl
  · rfl

/-- Counters that no compiler builds. -/
def uncompiledCounting : Compiled where
  code := .native (.start countingCode.resolved ⟨"cc", [], some "no cc", fun _ => countingCode.resolved.program⟩)
  resolves := ⟨counting, .empty, .empty, rfl⟩

/-- Interpreted counters that have run once and are watched, and counters that cannot be built. -/
def mixedCalls : List Call :=
  [.addGroup "interpreted" 2 compiledCounting, .addMonitor 0 "v", .run 0.5, .addGroup "native" 1 uncompiledCounting]

theorem unfailing_mixed : ((start ⟨0.5, 0⟩).after mixedCalls).Unfailing := by
  have hclock : Clock.start 0.5 = .ok ⟨0.5, 0⟩ := if_pos (by decide +kernel)
  have hresolve : resolve counting .empty .empty = .ok countingCode.resolved := rfl
  have hnative : uncompiledCounting.code.Unfailing :=
    (CodeObject.faithful_of_program (Resolved.wellScoped_of_resolve hresolve) rfl).unfailing
  refine unfailing_after (.start hclock) nofun fun call hcall => ?_
  simp only [mixedCalls, List.mem_cons, List.not_mem_nil, or_false] at hcall
  rcases hcall with rfl | rfl | rfl | rfl
  · exact (CodeObject.faithful_interpreted _).unfailing
  · trivial
  · trivial
  · exact hnative

end Network
end FixedStep
