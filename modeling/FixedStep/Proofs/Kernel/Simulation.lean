import FixedStep.Proofs.Calls
import FixedStep.Proofs.Evaluation
import FixedStep.Proofs.Float
import FixedStep.Proofs.Kernel.Machine
/-!
# Simulation — element by element, a program computes what evaluation does

An expression has at an element the value that its column has there (`value_term`).  A loop in place reads every array
at the one element it is about to write, so that it leaves the whole column of its update (`loop_update`).
-/
namespace FixedStep

namespace Kernel

open Machine (Memory)

/-- The arrays of the state variables agree with the columns of a view at an element. -/
structure AgreesAt (s : Scope) (memory : Memory) (v : View) (i : Nat) : Prop where
  arrays : ∀ slot < s.stateVariables.length,
    (memory.arrays.find? (arrayName (s.nameOf slot))).bind (·[i]?) = (v.column slot)[i]?
  t : memory.t = v.t
  dt : memory.dt = v.dt

/-- The library computes what a function does. -/
def Provides (m : Machine) (rename : String → String) (f : Function) : Prop :=
  ∀ xs : List Float, xs.length = f.arity → m.library (rename f.name) xs = some (f.implementation xs)

/-- **A literal has the value of its number**, where the digits printed for a finite one are read as its magnitude. -/
theorem value_literal {m : Machine} (hneg : ∀ x, m.neg x = Float.neg x) {v : Float}
    (hread : Binary.isFinite v →
      (m.number (String.ofList (magnitudeText v))).map (if Binary.isNegative v then m.neg else id) = some v)
    (memory : Memory) (i : Nat) : m.value memory i (literalTerm v) = some v := by
  unfold literalTerm magnitudeTerm
  -- NaN and the infinities are written as names, everything finite as a decimal that reads back
  by_cases hnan : v.isNaN = true
  · rw [if_pos hnan, Binary.eq_nan hnan]
    rfl
  · rw [if_neg hnan]
    rw [Bool.not_eq_true] at hnan
    by_cases hfinite : Binary.isFinite v = true
    · have hread := hread hfinite
      rw [if_pos hfinite]
      by_cases hsign : Binary.isNegative v = true
      · rw [if_pos hsign] at hread ⊢
        exact hread
      · rw [if_neg hsign] at hread ⊢
        rw [Option.map_id] at hread
        exact hread
    · rw [if_neg hfinite]
      rw [Bool.not_eq_true] at hfinite
      by_cases hsign : Binary.isNegative v = true
      · rw [if_pos hsign, Binary.eq_neg_infinity hnan hfinite hsign]
        exact congrArg some (hneg _)
      · rw [if_neg hsign]
        rw [Bool.not_eq_true] at hsign
        rw [Binary.eq_infinity hnan hfinite hsign]
        rfl

section
variable {catalog : Catalog} {s : Scope} {m : Machine} {rename : String → String}

/-- What is asked of a tree so that its term has a value. -/
structure Runnable (catalog : Catalog) (s : Scope) (m : Machine) (rename : String → String) (n : Node) : Prop extends
    Throughout (· < s.stateVariables.length) (Provides m rename)
      (fun v => ∀ (memory : Memory) (i : Nat), m.value memory i (literalTerm v) = some v) n where
  callsIn : n.CallsIn catalog

structure AllRunnable (catalog : Catalog) (s : Scope) (m : Machine) (rename : String → String) (ns : List Node) :
    Prop extends ThroughoutAll (· < s.stateVariables.length) (Provides m rename)
      (fun v => ∀ (memory : Memory) (i : Nat), m.value memory i (literalTerm v) = some v) ns where
  callsIn : Node.AllCallIn catalog ns

theorem Runnable.neg {n : Node} (h : Runnable catalog s m rename (.neg n)) : Runnable catalog s m rename n :=
  ⟨h.toThroughout.neg, h.callsIn⟩

theorem Runnable.binary {op : Operator} {l r : Node} (h : Runnable catalog s m rename (.binary op l r)) :
    Runnable catalog s m rename l ∧ Runnable catalog s m rename r :=
  ⟨⟨h.toThroughout.binary.1, h.callsIn.1⟩, ⟨h.toThroughout.binary.2, h.callsIn.2⟩⟩

theorem Runnable.call {f : Function} {args : List Node} (h : Runnable catalog s m rename (.call f args)) :
    args.length = f.arity ∧ Provides m rename f ∧ AllRunnable catalog s m rename args :=
  ⟨h.callsIn.2.1, h.toThroughout.call.1, h.toThroughout.call.2, h.callsIn.2.2⟩

theorem AllRunnable.cons {n : Node} {ns : List Node} (h : AllRunnable catalog s m rename (n :: ns)) :
    Runnable catalog s m rename n ∧ AllRunnable catalog s m rename ns :=
  ⟨⟨h.toThroughoutAll.cons.1, h.callsIn.1⟩, ⟨h.toThroughoutAll.cons.2, h.callsIn.2⟩⟩

theorem length_evaluateAll (v : View) : ∀ ns : List Node, (v.evaluateAll ns).length = ns.length
  | [] => rfl
  | _ :: ns => congrArg (· + 1) (length_evaluateAll v ns)

mutual

/-- **The value of a term at an element** is that of the column there. -/
theorem value_term (hm : m.Calculates) {v : View} (hv : v.Square s.stateVariables.length) {memory : Memory} {i : Nat}
    (hi : i < v.len) (hagrees : AgreesAt s memory v i) : ∀ {n : Node}, Runnable catalog s m rename n →
      m.value memory i (term rename s n) = (v.evaluate n)[i]?
  | .const c, h => by
    rw [term, h.numbers c List.mem_cons_self, View.evaluate, List.getElem?_replicate_of_lt hi]
  | .state slot, h => hagrees.arrays slot (h.slots slot List.mem_cons_self)
  | .clock reading, _ => by
    rw [View.evaluate, List.getElem?_replicate_of_lt hi]
    cases reading with
    | time => exact congrArg some hagrees.t
    | step => exact congrArg some hagrees.dt
  | .neg n, h => by
    rw [term, Machine.value, value_term hm hv hi hagrees h.neg, View.evaluate, List.getElem?_map,
      funext hm.neg]
  | .binary op l r, h => by
    obtain ⟨hl, hr⟩ := h.binary
    have hvl := value_term hm hv hi hagrees hl
    have hvr := value_term hm hv hi hagrees hr
    have hil : i < (v.evaluate l).length := by rw [View.length_evaluate hv hl.slots]; exact hi
    have hir : i < (v.evaluate r).length := by rw [View.length_evaluate hv hr.slots]; exact hi
    rw [List.getElem?_eq_getElem hil] at hvl
    rw [List.getElem?_eq_getElem hir] at hvr
    have hcolumn : (v.evaluate (.binary op l r))[i]? = some (op.apply (v.evaluate l)[i] (v.evaluate r)[i]) := by
      rw [View.evaluate, List.getElem?_zipWith, List.getElem?_eq_getElem hil, List.getElem?_eq_getElem hir]
    rw [hcolumn]
    -- a power is a call of the library, every other operation is the machine's own
    by_cases hop : op = .pow
    · subst hop
      rw [term, Machine.value, Machine.values, Machine.values, Machine.values, hvl, hvr]
      exact hm.pow _ _
    · rw [term_binary hop, Machine.value, hvl, hvr]
      exact congrArg some (hm.arithmetic op hop _ _)
  | .call f args, h => by
    obtain ⟨hcount, hprovides, hargs⟩ := h.call
    have hvalues := values_terms hm hv hi hagrees hargs
    have hlength : ((v.evaluateAll args).map fun column => column[i]?.getD 0.0).length = f.arity := by
      rw [List.length_map, length_evaluateAll, hcount]
    rw [term, Machine.value, hvalues, View.evaluate, List.getElem?_map, rows_getElem? _ hi]
    exact hprovides _ hlength

theorem values_terms (hm : m.Calculates) {v : View} (hv : v.Square s.stateVariables.length) {memory : Memory} {i : Nat}
    (hi : i < v.len) (hagrees : AgreesAt s memory v i) : ∀ {ns : List Node}, AllRunnable catalog s m rename ns →
      m.values memory i (terms rename s ns) = some ((v.evaluateAll ns).map fun column => column[i]?.getD 0.0)
  | [], _ => rfl
  | n :: ns, h => by
    obtain ⟨hn, hns⟩ := h.cons
    have hvalue := value_term hm hv hi hagrees hn
    have hin : i < (v.evaluate n).length := by rw [View.length_evaluate hv hn.slots]; exact hi
    rw [List.getElem?_eq_getElem hin] at hvalue
    rw [terms, Machine.values, hvalue, values_terms hm hv hi hagrees hns, View.evaluateAll,
      List.map_cons, List.getElem?_eq_getElem hin]
    rfl

end

end

/-! ## Loops -/

/-- The arrays of the state variables are the columns of a view. -/
structure Mirrors (s : Scope) (memory : Memory) (v : View) : Prop where
  arrays : ∀ slot < s.stateVariables.length, memory.arrays.find? (arrayName (s.nameOf slot)) = some (v.column slot)
  t : memory.t = v.t
  dt : memory.dt = v.dt

theorem arrayName_injective {a b : String} (h : arrayName a = arrayName b) : a = b := by
  have hchars := congrArg String.toList h
  rw [arrayName, arrayName, String.toList_append, String.toList_append] at hchars
  exact String.toList_inj.1 (List.append_cancel_left hchars)

theorem nameOf_injective {s : Scope} (hdistinct : (s.stateVariables.map (·.name)).Nodup) {a b : Nat}
    (ha : a < s.stateVariables.length) (hb : b < s.stateVariables.length) (h : s.nameOf a = s.nameOf b) : a = b := by
  have hsame := Scope.slot?_nameOf hdistinct ha
  rw [h, Scope.slot?_nameOf hdistinct hb] at hsame
  exact (Option.some.inj hsame).symm

theorem mirrors_insert {s : Scope} (hdistinct : (s.stateVariables.map (·.name)).Nodup) {memory : Memory} {v : View}
    (h : Mirrors s memory v) (hcount : v.columns.length = s.stateVariables.length) {slot : Nat}
    (hslot : slot < s.stateVariables.length) (c : Column) :
    Mirrors s ⟨memory.arrays.insert (arrayName (s.nameOf slot)) c, memory.t, memory.dt⟩ (v.write slot c) := by
  refine ⟨fun other hother => ?_, h.t, h.dt⟩
  rw [View.column_write (by rw [hcount]; exact hslot), NameMap.find?_insert]
  by_cases heq : slot = other
  · subst heq
    rw [if_pos rfl, if_pos rfl]
  · have hne : arrayName (s.nameOf slot) ≠ arrayName (s.nameOf other) := fun hname =>
      heq (nameOf_injective hdistinct hslot hother (arrayName_injective hname))
    rw [if_neg heq, if_neg hne, h.arrays other hother]

/-- A list with its first elements replaced, and one element more. -/
theorem set_take_append_drop {new old : List Float} {n : Nat} {x : Float} (hx : new[n]? = some x)
    (hold : n < old.length) : (new.take n ++ old.drop n).set n x = new.take (n + 1) ++ old.drop (n + 1) := by
  obtain ⟨hnew, rfl⟩ := List.getElem?_eq_some_iff.1 hx
  have hlength : (new.take n).length = n := by rw [List.length_take]; omega
  rw [List.set_append_right _ _ (by omega), hlength, Nat.sub_self, List.drop_eq_getElem_cons hold, List.set_cons_zero,
    List.take_succ_eq_append_getElem hnew, List.append_assoc, List.singleton_append]

section
variable {catalog : Catalog} {s : Scope} {m : Machine} {rename : String → String}

/-- What the loop of an update has written after `n` elements. -/
def written (v : View) (u : Update) (n : Nat) : View :=
  v.write u.target ((v.evaluate u.node).take n ++ (v.column u.target).drop n)

/-- The elements a loop has still to write are the old ones. -/
theorem agreesAt_written {v : View} (hv : v.Square s.stateVariables.length) {u : Update}
    (htarget : u.target < s.stateVariables.length) {n : Nat} (hn : n ≤ (v.evaluate u.node).length) {memory : Memory}
    (h : Mirrors s memory (written v u n)) : AgreesAt s memory v n := by
  refine ⟨fun slot hslot => ?_, h.t, h.dt⟩
  rw [h.arrays slot hslot, Option.bind_some, written, View.column_write (by rw [hv.count]; exact htarget)]
  split
  · rename_i heq
    subst heq
    have hlength : ((v.evaluate u.node).take n).length = n := by rw [List.length_take]; omega
    rw [List.getElem?_append_right (by omega), hlength, Nat.sub_self, List.getElem?_drop, Nat.add_zero]
  · rfl

/-- **A loop in place leaves the update's whole column.** -/
theorem loop_update (hdistinct : (s.stateVariables.map (·.name)).Nodup) (hm : m.Calculates) {v : View}
    (hv : v.Square s.stateVariables.length) {u : Update} (htarget : u.target < s.stateVariables.length)
    (hnode : Runnable catalog s m rename u.node) {memory : Memory} (h : Mirrors s memory v) : ∀ n ≤ v.len,
      ∃ after, m.loop ⟨arrayName (s.nameOf u.target), term rename s u.node⟩ memory n = some after ∧
        Mirrors s after (written v u n)
  | 0, _ => by
    refine ⟨memory, rfl, fun slot hslot => ?_, h.t, h.dt⟩
    rw [written, View.column_write (by rw [hv.count]; exact htarget), h.arrays slot hslot]
    split
    · rename_i heq
      subst heq
      rfl
    · rfl
  | n + 1, hn => by
    obtain ⟨before, hloop, hmirrors⟩ := loop_update hdistinct hm hv htarget hnode h n (Nat.le_of_succ_le hn)
    have hlength := View.length_evaluate hv hnode.slots
    have htargetLength := View.length_column hv htarget
    have hcolumn : (written v u n).column u.target = (v.evaluate u.node).take n ++ (v.column u.target).drop n := by
      rw [written, View.column_write (by rw [hv.count]; exact htarget), if_pos rfl]
    have hx : n < (v.evaluate u.node).length := by omega
    -- the loop has not come to element `n` yet: its value is read from the columns as they were before the loop
    have hagrees := agreesAt_written hv htarget (Nat.le_of_lt hx) hmirrors
    have hvalue := value_term hm hv (by omega) hagrees hnode
    rw [List.getElem?_eq_getElem hx] at hvalue
    have hbound : n < ((v.evaluate u.node).take n ++ (v.column u.target).drop n).length := by
      rw [List.length_append, List.length_take, List.length_drop]
      omega
    have hset := set_take_append_drop (List.getElem?_eq_getElem hx) (by omega : n < (v.column u.target).length)
    have hwritten : (written v u n).write u.target
        (((v.evaluate u.node).take n ++ (v.column u.target).drop n).set n (v.evaluate u.node)[n]) =
          written v u (n + 1) := by
      rw [hset, written, View.write, View.write, List.set_set]
      rfl
    refine ⟨_, ?_, hwritten ▸ mirrors_insert hdistinct hmirrors (List.length_set.trans hv.count) htarget _⟩
    rw [Machine.loop, hloop, Option.bind_some, Machine.assign, hmirrors.arrays _ htarget, hcolumn, Option.bind_some,
      hvalue, Option.bind_some, if_pos hbound]

/-- **Statements in order compute what updates in order do.** -/
theorem runAll_updates (hdistinct : (s.stateVariables.map (·.name)).Nodup) (hm : m.Calculates)
    (hspares : Spares rename) (hnames : ∀ slot < s.stateVariables.length, (s.nameOf slot).toList.all Lexeme.isNameRest) :
    ∀ {us : List Update} {v : View}, v.Square s.stateVariables.length →
      (∀ u ∈ us, u.target < s.stateVariables.length ∧ Runnable catalog s m rename u.node ∧
        ∀ f ∈ calls u.node, Word.isName f.name.toList) →
      ∀ {memory : Memory}, Mirrors s memory v →
        ∃ after, m.runAll rename v.len (us.map (statement s)) memory = some after ∧ Mirrors s after (v.updateAll us)
  | [], v, _, _, memory, h => ⟨memory, rfl, h⟩
  | u :: us, v, hv, hus, memory, h => by
    obtain ⟨⟨htarget, hnode, hcalls⟩, hrest⟩ := List.forall_mem_cons.1 hus
    have hnamed : Named s u.node := ⟨fun slot hslot => hnames slot (hnode.slots slot hslot), hcalls, fun _ _ => trivial⟩
    have hread := ofText?_statement hspares (hnames u.target htarget) hnamed
    have hlength := View.length_evaluate hv hnode.slots
    obtain ⟨middle, hloop, hmiddle⟩ := loop_update hdistinct hm hv htarget hnode h v.len (Nat.le_refl _)
    -- after all elements nothing of the old column is left
    have hupdate : written v u v.len = v.update u := by
      rw [written, List.take_of_length_le (by omega),
        List.drop_of_length_le (Nat.le_of_eq (View.length_column hv htarget)), List.append_nil]
      rfl
    rw [hupdate] at hmiddle
    have hsquare := View.square_write hv u.target hlength
    obtain ⟨after, hrun, hafter⟩ := runAll_updates hdistinct hm hspares hnames hsquare hrest hmiddle
    refine ⟨after, ?_, hafter⟩
    rw [List.map_cons, Machine.runAll, hread, Option.bind_some, hloop, Option.bind_some]
    exact hrun

end
end Kernel
end FixedStep
