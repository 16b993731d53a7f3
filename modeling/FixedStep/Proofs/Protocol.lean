import FixedStep.Proofs.CodeObject
import FixedStep.Proofs.Evaluation
import Mathlib
/-!
# Protocol — numbers cross to a program and back unchanged

The digits of a number's bits are read back as that number (`readBits_bitsText`), and blanks keep the words of a text
apart, so columns of one length are read back from their text (`decodeOutput_encodeColumns`).  A program that does with
its input what the generated one does so finds the columns it was sent (`program_encodeInput`).
-/
namespace FixedStep

/-! ## Words -/

namespace Text

/-- Characters that make one word. -/
def IsWord (cs : List Char) : Prop := cs ≠ [] ∧ ∀ c ∈ cs, isBlank c = false

/-- **A blank ends a word.** -/
theorem wordsOf_word {cs : List Char} (h : IsWord cs) {blank : Char} (hblank : isBlank blank = true)
    (rest : List Char) : wordsOf (cs ++ blank :: rest) = String.ofList cs :: wordsOf rest := by
  have hword : (!cs.isEmpty) = true := by simpa using h.1
  rw [wordsOf, wordsOf, List.splitOnP_append_cons_of_forall_mem h.2 blank hblank,
    List.filter_cons_of_pos (p := fun w : List Char => !w.isEmpty) hword, List.map_cons]

/-! ## Hexadecimal digits -/

theorem hexDigit_spec : ∀ n : Fin 16, hexValue? (hexDigit n.val) = some n.val ∧ isBlank (hexDigit n.val) = false ∧
    hexDigit n.val ≠ '+' := by
  decide +kernel

theorem exists_of_mem_hexFixed : ∀ {width n : Nat} {c : Char}, c ∈ hexFixed width n → ∃ digit : Fin 16,
    c = hexDigit digit.val
  | width + 1, n, c, h => by
    rcases List.mem_append.1 h with h | h
    · exact exists_of_mem_hexFixed h
    · exact ⟨⟨n % 16, Nat.mod_lt _ (by decide)⟩, List.mem_singleton.1 h⟩

theorem isWord_hexFixed (width n : Nat) : IsWord (hexFixed (width + 1) n) := by
  refine ⟨List.append_ne_nil_of_right_ne_nil _ (List.cons_ne_nil _ _), fun c hc => ?_⟩
  obtain ⟨digit, rfl⟩ := exists_of_mem_hexFixed hc
  exact (hexDigit_spec digit).2.1

theorem isWord_repr (n : Nat) : IsWord n.repr.toList := by
  rw [Nat.toList_repr]
  refine ⟨Nat.toDigits_ne_nil, fun c hc => ?_⟩
  obtain ⟨hlow, hhigh⟩ := Char.isDigit_iff_toNat.1 (Nat.isDigit_of_mem_toDigits (b := 10) (by decide) (by decide) hc)
  unfold isBlank
  generalize c.toNat = digit at hlow hhigh
  simp only [Char.reduceToNat] at hlow hhigh
  interval_cases digit <;> rfl

end Text

namespace Protocol

open Text (hexFixed hexDigit IsWord wordsOf)

/-! ## Numbers -/

theorem readDigits_hexFixed : ∀ (width n m : Nat) (rest : List Char), 16 ^ width * n + m % 16 ^ width < 2 ^ 64 →
    readDigits n (hexFixed width m ++ rest) = readDigits (16 ^ width * n + m % 16 ^ width) rest
  | 0, n, m, rest, _ => by simp [hexFixed, Nat.mod_one]
  | width + 1, n, m, rest, h => by
    have hvalue : 16 ^ (width + 1) * n + m % 16 ^ (width + 1) =
        16 * (16 ^ width * n + m / 16 % 16 ^ width) + m % 16 := by
      rw [Nat.pow_succ', Nat.mod_mul, Nat.mul_assoc, Nat.mul_add]
      omega
    rw [hvalue] at h ⊢
    have hdigit := (Text.hexDigit_spec ⟨m % 16, Nat.mod_lt _ (by decide)⟩).1
    rw [hexFixed, List.append_assoc, readDigits_hexFixed width n (m / 16) _ (by omega), List.singleton_append,
      readDigits, hdigit]
    exact if_pos h

theorem unsigned_of_not_mem {cs : List Char} (h : '+' ∉ cs) : unsigned cs = cs := by
  unfold unsigned
  split
  · exact absurd List.mem_cons_self h
  · rfl

/-- **A number is read back from the digits of its bits.** -/
theorem readBits_bitsText (x : Float) : readBits (bitsText x) = .ok x := by
  have hplus : '+' ∉ hexFixed 16 x.toBits.toNat := by
    intro h
    obtain ⟨digit, hdigit⟩ := Text.exists_of_mem_hexFixed h
    exact (Text.hexDigit_spec digit).2.2 hdigit.symm
  have hlt : x.toBits.toNat < 16 ^ 16 := x.toBits.toNat_lt
  have hread : readDigits 0 (hexFixed 16 x.toBits.toNat) = .ok x.toBits.toNat := by
    have h := readDigits_hexFixed 16 0 x.toBits.toNat [] (by rw [Nat.mod_eq_of_lt hlt]; omega)
    rw [Nat.mod_eq_of_lt hlt, Nat.mul_zero, Nat.zero_add, List.append_nil] at h
    exact h
  rw [readBits, bitsText, String.toList_ofList, unsigned_of_not_mem hplus, hread]
  simp only [Except.map, UInt64.ofNat_toNat, Float.ofBits_toBits]

theorem readValues_map_bitsText : ∀ xs : List Float, readValues (xs.map bitsText) = .ok xs
  | [] => rfl
  | x :: xs => by
    rw [List.map_cons, readValues, readValue, readBits_bitsText, readValues_map_bitsText xs]
    rfl

/-! ## Columns -/

theorem isWord_bitsText (x : Float) : IsWord (bitsText x).toList := by
  rw [bitsText, String.toList_ofList]
  exact Text.isWord_hexFixed 15 _

theorem wordsOf_encodeColumn : ∀ (c : Column) (rest : List Char),
    wordsOf ((encodeColumn c).toList ++ rest) = c.map bitsText ++ wordsOf rest
  | [], rest => rfl
  | x :: xs, rest => by
    have hrest := wordsOf_encodeColumn xs rest
    rw [encodeColumn] at hrest ⊢
    rw [List.map_cons, String.join_cons, String.toList_append, String.toList_append, List.append_assoc,
      List.append_assoc, show "\n".toList = ['\n'] from rfl, List.singleton_append,
      Text.wordsOf_word (isWord_bitsText x) (by decide), hrest, String.ofList_toList]
    rfl

/-- **The words of columns are their numbers.** -/
theorem words_encodeColumns : ∀ columns : List Column,
    wordsOf (encodeColumns columns).toList = columns.flatten.map bitsText
  | [] => rfl
  | c :: columns => by
    have hrest := words_encodeColumns columns
    rw [encodeColumns] at hrest ⊢
    rw [List.map_cons, String.join_cons, String.toList_append, wordsOf_encodeColumn, hrest, List.flatten_cons,
      List.map_append]

theorem columnsOf_flatten {len : Nat} : ∀ {columns : List Column}, (∀ c ∈ columns, c.length = len) →
    columnsOf len columns.length columns.flatten = columns
  | [], _ => rfl
  | c :: columns, h => by
    obtain ⟨hc, hcs⟩ := List.forall_mem_cons.1 h
    rw [List.length_cons, columnsOf, List.flatten_cons, List.take_left' hc, List.drop_left' hc, columnsOf_flatten hcs]

theorem length_flatten {len : Nat} : ∀ {columns : List Column}, (∀ c ∈ columns, c.length = len) →
    columns.flatten.length = len * columns.length
  | [], _ => rfl
  | c :: columns, h => by
    obtain ⟨hc, hcs⟩ := List.forall_mem_cons.1 h
    rw [List.flatten_cons, List.length_append, hc, length_flatten hcs, List.length_cons, Nat.mul_succ, Nat.add_comm]

/-- **Columns are read back from what is written of them.** -/
theorem decodeOutput_encodeColumns {len : Nat} {columns : List Column} (h : ∀ c ∈ columns, c.length = len) :
    decodeOutput (encodeColumns columns) len columns.length = .ok columns := by
  have hwords : Text.words (encodeColumns columns) = columns.flatten.map bitsText := words_encodeColumns columns
  unfold decodeOutput
  simp only [hwords, List.length_map, length_flatten h, ne_eq, not_true_eq_false, if_false, readValues_map_bitsText]
  exact congrArg Except.ok (columnsOf_flatten h)

end Protocol

/-! ## The program -/

namespace Resolved

open Protocol

/-- **The program finds the columns it was sent**, and writes what the updates make of them. -/
theorem program_encodeInput {r : Resolved} {v : View} (hv : v.Square r.scope.stateVariables.length) :
    r.program (encodeInput v.len v.t v.dt v.columns) = .ok (encodeColumns (r.written v)) := by
  have hwords : Text.words (encodeInput v.len v.t v.dt v.columns) =
      v.len.repr :: bitsText v.t :: bitsText v.dt :: v.columns.flatten.map bitsText := by
    rw [Text.words, encodeInput]
    simp only [String.toList_append, List.append_assoc, show "\n".toList = ['\n'] from rfl,
      show " ".toList = [' '] from rfl, List.cons_append, List.nil_append]
    rw [show toString v.len = v.len.repr from rfl, Text.wordsOf_word (Text.isWord_repr _) (by decide),
      Text.wordsOf_word (isWord_bitsText _) (by decide), Text.wordsOf_word (isWord_bitsText _) (by decide),
      words_encodeColumns]
    simp only [String.ofList_toList]
  have hcolumns : columnsOf v.len r.scope.stateVariables.length v.columns.flatten = v.columns := by
    rw [← hv.count]
    exact columnsOf_flatten hv.lengths
  unfold program
  simp only [hwords, Nat.toNat?_repr, readBits_bitsText, readValues_map_bitsText, hcolumns]

/-- **What the program writes is read back as the outcome of the equations.** -/
theorem decodeOutput_written {r : Resolved} (hr : r.WellScoped) {v : View}
    (hv : v.Square r.scope.stateVariables.length) :
    (decodeOutput (encodeColumns (r.written v)) v.len r.targets.length).map (fun columns =>
      NameMap.ofList (r.targets.zip columns)) = .ok (r.outputs (v.updateAll r.updates)) := by
  obtain ⟨hsquare, hlen⟩ := View.square_updateAll hv hr.reads
  have hlengths : ∀ c ∈ r.written v, c.length = v.len := by
    intro c hc
    obtain ⟨u, hu, rfl⟩ := List.mem_map.1 hc
    exact (View.length_column hsquare (hr.writes u hu)).trans hlen
  have hcount : r.targets.length = (r.written v).length := by rw [targets, written, List.length_map, List.length_map]
  rw [hcount, decodeOutput_encodeColumns hlengths]
  refine congrArg Except.ok (congrArg NameMap.ofList ?_)
  rw [targets, written, List.zip_map']

end Resolved

/-- **Code is faithful if its program does what the generated one does.** -/
theorem CodeObject.faithful_of_program {c : NativeCode} (hc : c.resolved.WellScoped)
    (hrun : c.toolchain.run c.place = c.resolved.program) : (native c).Faithful := by
  intro s
  have houtputs : c.kernel.outputs = c.resolved.targets := congrArg Kernel.outputs c.generated
  rw [outcome, NativeCode.outcome, resolved, Resolved.execute]
  cases hcolumns : s.columns c.resolved.scope with
  | error e => rfl
  | ok columns =>
    have hsquare := Resolved.square_columns hcolumns
    have hread := Resolved.decodeOutput_written hc hsquare
    rw [← houtputs] at hread
    simp only [NativeCode.answer, hrun, Resolved.program_encodeInput hsquare, bind, Except.bind]
    exact hread

end FixedStep
