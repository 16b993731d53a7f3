import FixedStep.Dimension.Text
import FixedStep.Proofs.Dimension
import FixedStep.Proofs.Kernel.Literal
import Mathlib
/-!
# Text — the text of a dimension tells it

A text is its factors with blanks between them, and no factor has a blank of its own, so equal texts have equal factors.
Each factor begins with the symbol it is a power of, up to a caret, and no two symbols are alike; so a factor that is
left out in one of two texts is left out in the other (`factorsOf_inj`), and the dimensions are equal (`text_inj`).
-/
namespace FixedStep
namespace Dimension

variable {symbol factor : String} {symbols : List String} {e e' : Int8} {es es' : List Int8} {d d' : Dimension}

/-! ## One factor -/

/-- What stands before the caret of a factor. -/
def base (factor : String) : List Char := factor.toList.takeWhile (· != '^')

theorem takeWhile_of_not_mem (h : '^' ∉ symbol.toList) (rest : List Char) :
    (symbol.toList ++ rest).takeWhile (· != '^') = symbol.toList ++ rest.takeWhile (· != '^') :=
  List.takeWhile_append_of_pos fun _ hc => bne_iff_ne.2 fun heq => h (heq ▸ hc)

theorem base_of_factor? (hcaret : '^' ∉ symbol.toList) (h : factor? symbol e = some factor) :
    base factor = symbol.toList := by
  unfold factor? at h
  split_ifs at h
  · obtain rfl := Option.some.inj h
    simpa [base] using takeWhile_of_not_mem hcaret []
  · obtain rfl := Option.some.inj h
    rw [base, String.toList_append, String.toList_append, List.append_assoc, takeWhile_of_not_mem hcaret]
    exact List.append_nil _

/-- **A factor tells its exponent.** -/
theorem factor?_inj (h : factor? symbol e = factor? symbol e') : e = e' := by
  -- a symbol alone is shorter than one with a caret behind it
  have hshort : ∀ n : Int8, symbol ≠ symbol ++ "^" ++ toString n.toInt := by
    intro n heq
    have hlength := congrArg (fun s => s.toList.length) heq
    simp only [String.toList_append, List.length_append] at hlength
    have : "^".toList.length = 1 := rfl
    omega
  unfold factor? at h
  split_ifs at h with hzero hzero' _ hone _ hone'
  · rw [hzero, hzero']
  · rw [hone, hone']
  · exact absurd (Option.some.inj h) (hshort e')
  · exact absurd (Option.some.inj h).symm (hshort e)
  · have hnumber := String.append_right_inj _ |>.1 (Option.some.inj h)
    rw [Int.toString_eq_repr, Int.toString_eq_repr, Int.repr_inj] at hnumber
    exact Int8.toInt_inj.1 hnumber

theorem blank_not_mem_toString (n : Int) : ' ' ∉ (toString n).toList := by
  have hnat : ∀ m : Nat, ' ' ∉ m.repr.toList := by
    intro m hmem
    rw [Nat.toList_repr] at hmem
    exact absurd ((Binary.toDigits_areDigits m).digits _ hmem) (by decide)
  rw [Int.toString_eq_repr, Int.repr_eq_if]
  split_ifs
  · exact hnat _
  · rw [String.toList_append, List.mem_append, not_or]
    exact ⟨by decide, hnat _⟩

theorem blank_not_mem_factor? (hblank : ' ' ∉ symbol.toList) (h : factor? symbol e = some factor) :
    ' ' ∉ factor.toList := by
  unfold factor? at h
  split_ifs at h
  · rwa [← Option.some.inj h]
  · rw [← Option.some.inj h, String.toList_append, String.toList_append, List.mem_append, List.mem_append, not_or,
      not_or]
    exact ⟨⟨hblank, by decide⟩, blank_not_mem_toString _⟩

/-! ## All factors -/

def factorsOf (symbols : List String) (es : List Int8) : List String :=
  (symbols.zip es).filterMap fun p => factor? p.1 p.2

theorem factorsOf_cons (symbol : String) (symbols : List String) (e : Int8) (es : List Int8) :
    factorsOf (symbol :: symbols) (e :: es) = (factor? symbol e).toList ++ factorsOf symbols es := by
  rw [factorsOf, List.zip_cons_cons, List.filterMap_cons]
  cases factor? symbol e <;> rfl

theorem exists_of_mem_factorsOf (h : factor ∈ factorsOf symbols es) :
    ∃ symbol ∈ symbols, ∃ e, factor? symbol e = some factor := by
  obtain ⟨⟨symbol, e⟩, hmem, hfactor⟩ := List.mem_filterMap.1 h
  exact ⟨symbol, (List.of_mem_zip hmem).1, e, hfactor⟩

/-- A factor of a new symbol is found in all factors only as the first of them. -/
theorem factor?_eq_some_of_factorsOf (hnew : symbol ∉ symbols)
    (hcaret : ∀ symbol' ∈ symbol :: symbols, '^' ∉ symbol'.toList)
    (h : factorsOf (symbol :: symbols) (e :: es) = factorsOf (symbol :: symbols) (e' :: es'))
    (hfactor : factor? symbol e = some factor) : factor? symbol e' = some factor := by
  obtain ⟨hsymbol, hothers⟩ := List.forall_mem_cons.1 hcaret
  rw [factorsOf_cons, factorsOf_cons] at h
  have hmem : factor ∈ (factor? symbol e').toList ++ factorsOf symbols es' :=
    h ▸ List.mem_append_left _ (Option.mem_toList.2 hfactor)
  rcases List.mem_append.1 hmem with hmem | hmem
  · exact Option.mem_toList.1 hmem
  · obtain ⟨symbol', hmem', _, hfactor'⟩ := exists_of_mem_factorsOf hmem
    have hbase := (base_of_factor? hsymbol hfactor).symm.trans (base_of_factor? (hothers _ hmem') hfactor')
    exact absurd (String.toList_inj.1 hbase ▸ hmem') hnew

/-- **The factors that are not left out tell all exponents**, since every one shows its symbol and no symbol comes
twice. -/
theorem factorsOf_inj : ∀ {symbols : List String} {es es' : List Int8}, symbols.Nodup →
    (∀ symbol ∈ symbols, '^' ∉ symbol.toList) → es.length = symbols.length → es'.length = symbols.length →
    factorsOf symbols es = factorsOf symbols es' → es = es'
  | [], [], [], _, _, _, _, _ => rfl
  | symbol :: symbols, e :: es, e' :: es', hdistinct, hcaret, hlength, hlength', h => by
    obtain ⟨hnew, hdistinct⟩ := List.nodup_cons.1 hdistinct
    have hhead : factor? symbol e = factor? symbol e' := Option.ext fun _ =>
      ⟨factor?_eq_some_of_factorsOf hnew hcaret h, factor?_eq_some_of_factorsOf hnew hcaret h.symm⟩
    rw [factorsOf_cons, factorsOf_cons, hhead, List.append_cancel_left_eq] at h
    rw [factor?_inj hhead,
      factorsOf_inj hdistinct (List.forall_mem_cons.1 hcaret).2 (Nat.succ.inj hlength) (Nat.succ.inj hlength') h]

theorem factors_eq_iff : d.factors = d'.factors ↔ d = d' := by
  refine ⟨fun h => ?_, fun h => h ▸ rfl⟩
  have hfactors : factorsOf symbols d.exponents = factorsOf symbols d'.exponents := h
  exact exponents_inj.1 (factorsOf_inj (by decide) (by decide) rfl rfl hfactors)

/-! ## The text -/

/-- What stands between the blanks of a text. -/
def parts (d : Dimension) : List String := if d.isOne then ["1"] else d.factors

theorem text_toList (d : Dimension) : d.text.toList = [' '].intercalate (d.parts.map String.toList) := by
  unfold text parts
  split
  · rfl
  · rw [String.toList_intercalate]
    rfl

theorem parts_ne_nil (d : Dimension) : d.parts ≠ [] := by
  unfold parts
  split_ifs with hone
  · exact List.cons_ne_nil _ _
  · exact fun h => hone (isOne_iff.2 (factors_eq_iff.1 (h : d.factors = one.factors)))

theorem blank_not_mem_parts : ∀ part ∈ d.parts.map String.toList, ' ' ∉ part := by
  simp only [List.forall_mem_map]
  intro part hpart
  unfold parts at hpart
  split_ifs at hpart
  · rw [List.mem_singleton.1 hpart]
    decide
  · obtain ⟨symbol, hmem, e, hfactor⟩ := exists_of_mem_factorsOf hpart
    have hblank : ∀ symbol ∈ symbols, ' ' ∉ symbol.toList := by decide
    exact blank_not_mem_factor? (hblank symbol hmem) hfactor

/-- The text of plain numbers is no factor. -/
theorem one_ne_factors (d : Dimension) : ["1"] ≠ d.factors := by
  intro h
  obtain ⟨symbol, hmem, e, hfactor⟩ := exists_of_mem_factorsOf (h ▸ List.mem_singleton_self "1" : "1" ∈ d.factors)
  have hbase : ∀ symbol ∈ symbols, '^' ∉ symbol.toList ∧ base "1" ≠ symbol.toList := by decide
  exact (hbase symbol hmem).2 (base_of_factor? (hbase symbol hmem).1 hfactor)

theorem parts_inj (h : d.parts = d'.parts) : d = d' := by
  unfold parts at h
  split_ifs at h with hone hone' hone'
  · rw [isOne_iff.1 hone, isOne_iff.1 hone']
  · exact absurd h (one_ne_factors d')
  · exact absurd h.symm (one_ne_factors d)
  · exact factors_eq_iff.1 h

/-- **No two dimensions are written alike.** -/
theorem text_inj : d.text = d'.text ↔ d = d' := by
  refine ⟨fun h => parts_inj ?_, fun h => h ▸ rfl⟩
  have hsplit := congrArg (fun s => s.toList.splitOn ' ') h
  simp only [text_toList] at hsplit
  rw [List.splitOn_intercalate _ blank_not_mem_parts (by simp [parts_ne_nil]),
    List.splitOn_intercalate _ blank_not_mem_parts (by simp [parts_ne_nil])] at hsplit
  exact (List.map_inj_right fun _ _ => String.toList_inj.1).1 hsplit

end Dimension
end FixedStep
