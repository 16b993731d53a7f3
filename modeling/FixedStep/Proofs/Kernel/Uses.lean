import FixedStep.Kernel
/-!
# Uses — the functions that a program is given

The functions collected from a set of equations are the functions it calls, each name once and where it comes first
(`functionsUsed_eq`).
-/
namespace FixedStep
namespace Kernel

mutual

/-- The functions a tree calls: each call before those in its arguments, from the left. -/
def calls : Node → List Function
  | .const _ => []
  | .state _ => []
  | .clock _ => []
  | .neg n => calls n
  | .binary _ l r => calls l ++ calls r
  | .call f args => f :: callsAll args

def callsAll : List Node → List Function
  | [] => []
  | n :: ns => calls n ++ callsAll ns

end

/-- The functions of a list, each name once, where it comes first; `seen` are names left out. -/
def firstUses : List String → List Function → List Function
  | _, [] => []
  | seen, f :: fs => if f.name ∈ seen then firstUses seen fs else f :: firstUses (f.name :: seen) fs

/-! ## Collecting -/

namespace Uses

mutual

/-- Collecting from a tree is meeting its calls one after the other. -/
theorem collect_eq : ∀ (u : Uses) (n : Node), u.collect n = (calls n).foldl meet u
  | _, .const _ => rfl
  | _, .state _ => rfl
  | _, .clock _ => rfl
  | u, .neg n => collect_eq u n
  | u, .binary _ l r => by rw [collect, collect_eq u l, collect_eq _ r, calls, List.foldl_append]
  | u, .call f args => by rw [collect, collectAll_eq (u.meet f) args, calls, List.foldl_cons]

theorem collectAll_eq : ∀ (u : Uses) (ns : List Node), u.collectAll ns = (callsAll ns).foldl meet u
  | _, [] => rfl
  | u, n :: ns => by rw [collectAll, collect_eq u n, collectAll_eq _ ns, callsAll, List.foldl_append]

end

/-- What is kept of a row of calls: the first of every name that was not seen before. -/
theorem used_foldl_meet : ∀ (fs : List Function) (u : Uses), (fs.foldl meet u).used = u.used ++ firstUses u.seen fs
  | [], u => (List.append_nil _).symm
  | f :: fs, u => by
    rw [List.foldl_cons, used_foldl_meet fs, meet, firstUses]
    by_cases h : f.name ∈ u.seen
    · rw [if_pos h, if_pos h]
    · rw [if_neg h, if_neg h, List.append_assoc, List.singleton_append]

end Uses

/-- **The functions used are those called**, each name once and where it comes first. -/
theorem functionsUsed_eq (r : Resolved) : functionsUsed r = firstUses [] (r.updates.flatMap fun u => calls u.node) := by
  have hcollect : ∀ (us : List Update) (u : Uses), us.foldl (fun u update => u.collect update.node) u =
      (us.flatMap fun update => calls update.node).foldl Uses.meet u := by
    intro us
    induction us with
    | nil => exact fun _ => rfl
    | cons update us ih =>
      intro u
      rw [List.foldl_cons, ih, Uses.collect_eq, List.flatMap_cons, List.foldl_append]
  rw [functionsUsed, hcollect, Uses.used_foldl_meet]
  exact List.nil_append _

/-! ## First uses -/

theorem mem_of_mem_firstUses {f : Function} : ∀ {fs : List Function} {seen : List String}, f ∈ firstUses seen fs → f ∈ fs
  | [], _, h => h
  | g :: fs, seen, h => by
    rw [firstUses] at h
    split at h
    · exact List.mem_cons_of_mem _ (mem_of_mem_firstUses h)
    · rcases List.mem_cons.1 h with rfl | h
      · exact List.mem_cons_self
      · exact List.mem_cons_of_mem _ (mem_of_mem_firstUses h)

theorem exists_mem_firstUses {f : Function} : ∀ {fs : List Function} {seen : List String}, f ∈ fs → f.name ∉ seen →
    ∃ g ∈ firstUses seen fs, g.name = f.name
  | g :: fs, seen, hf, hseen => by
    rw [firstUses]
    by_cases hg : g.name ∈ seen
    · rw [if_pos hg]
      rcases List.mem_cons.1 hf with rfl | hf
      · exact absurd hg hseen
      · exact exists_mem_firstUses hf hseen
    · rw [if_neg hg]
      by_cases hname : g.name = f.name
      · exact ⟨g, List.mem_cons_self, hname⟩
      · rcases List.mem_cons.1 hf with rfl | hf
        · exact absurd rfl hname
        · have hfresh : f.name ∉ g.name :: seen := by
            rw [List.mem_cons, not_or]
            exact ⟨Ne.symm hname, hseen⟩
          obtain ⟨first, hfirst, hsame⟩ := exists_mem_firstUses hf hfresh
          exact ⟨first, List.mem_cons_of_mem _ hfirst, hsame⟩

theorem exists_call_of_used {r : Resolved} {f : Function} (h : f ∈ functionsUsed r) :
    ∃ u ∈ r.updates, f ∈ calls u.node := by
  rw [functionsUsed_eq] at h
  exact List.mem_flatMap.1 (mem_of_mem_firstUses h)

theorem exists_used_of_call {r : Resolved} {u : Update} (hu : u ∈ r.updates) {f : Function} (hf : f ∈ calls u.node) :
    ∃ g ∈ functionsUsed r, g.name = f.name := by
  rw [functionsUsed_eq]
  exact exists_mem_firstUses (List.mem_flatMap.2 ⟨u, hu, hf⟩) List.not_mem_nil

end Kernel
end FixedStep
