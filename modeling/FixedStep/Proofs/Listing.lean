import FixedStep.Catalog.Listing
import FixedStep.Proofs.Dimension.Text
import FixedStep.Proofs.Json
import FixedStep.Proofs.Permanence
/-!
# Listing — the listing of a catalog tells what it declares

A listing shows of every function its name, its declared dimensions and the backends it supports, in name order.  Its
text is of one JSON value and the text of a dimension is of one dimension, so catalogs with the same listing declare the
same, and nothing else about them matters: neither the order of registration nor rules nor implementations
(`listing_eq_iff`).
-/
namespace FixedStep

namespace Backend

theorem mem_all (b : Backend) : b ∈ all := by cases b <;> decide

theorem tag_inj {b b' : Backend} (h : b.tag = b'.tag) : b = b' := by
  cases b <;> cases b' <;> first | rfl | exact absurd h (by decide)

theorem filter_all_inj {p q : Backend → Bool} : all.filter p = all.filter q ↔ ∀ b, p b = q b := by
  refine ⟨fun h b => Bool.eq_iff_iff.2 ?_, fun h => List.filter_congr fun b _ => h b⟩
  have hmem : b ∈ all.filter p ↔ b ∈ all.filter q := by rw [h]
  simpa [List.mem_filter, mem_all] using hmem

end Backend

/-! ## What is listed of one function -/

/-- What a listing shows of a function beside its name. -/
structure Declaration where
  signature : Signature
  backends : List Backend

def Function.declaration (f : Function) : Declaration := ⟨f.signature, Backend.all.filter f.supports⟩

def Declaration.listed (name : String) (d : Declaration) : Json :=
  .object [
    ("name", .string name),
    ("inputs", .array (d.signature.inputs.map fun d => .string d.text)),
    ("output", .string d.signature.output.text),
    ("backends", .array (d.backends.map fun b => .string b.tag))]

theorem Function.listed_eq (f : Function) : f.listed = f.declaration.listed f.name := rfl

theorem Declaration.listed_inj {name name' : String} {d d' : Declaration} (h : d.listed name = d'.listed name') :
    name = name' ∧ d = d' := by
  simp only [listed, Json.object.injEq, List.cons.injEq, Prod.mk.injEq, Json.string.injEq, Json.array.injEq, true_and,
    and_true] at h
  obtain ⟨hname, hinputs, houtput, hbackends⟩ := h
  have hinputs := (List.map_inj_right fun _ _ heq => Dimension.text_inj.1 (Json.string.inj heq)).1 hinputs
  have hbackends := (List.map_inj_right fun _ _ heq => Backend.tag_inj (Json.string.inj heq)).1 hbackends
  obtain ⟨⟨inputs, output⟩, backends⟩ := d
  obtain ⟨⟨inputs', output'⟩, backends'⟩ := d'
  obtain rfl := Dimension.text_inj.1 houtput
  cases hinputs
  cases hbackends
  exact ⟨hname, rfl⟩

theorem Declaration.numberless_listed (name : String) (d : Declaration) : (d.listed name).Numberless := by
  have hstrings : ∀ {α : Type} (xs : List α) (text : α → String),
      Json.AllNumberless (xs.map fun x => .string (text x)) := fun xs text =>
    Json.allNumberless_iff.2 (List.forall_mem_map.2 fun _ _ => trivial)
  exact ⟨trivial, hstrings _ _, trivial, hstrings _ _, trivial⟩

/-! ## Catalogs -/

namespace Catalog

variable {c c' : Catalog}

theorem values_listed (hc : c.Keyed) : c.values.map Function.listed =
    (NameMap.map Function.declaration c).entries.map fun e => e.2.listed e.1 := by
  rw [NameMap.values, NameMap.map, List.map_map, List.map_map]
  refine List.map_congr_left fun e he => ?_
  have hname : e.2.name = e.1 := hc e.1 e.2 (NameMap.mem_entries_iff.1 he)
  rw [Function.comp_apply, e.2.listed_eq, hname]
  rfl

/-- **Catalogs have the same listing exactly if their names have the same declarations.** -/
theorem listing_eq_iff_map (hc : c.Keyed) (hc' : c'.Keyed) :
    c.listing = c'.listing ↔ NameMap.map Function.declaration c = NameMap.map Function.declaration c' := by
  have hnumberless : ∀ {c : Catalog}, c.Keyed → (Json.array (c.values.map Function.listed)).Numberless := by
    intro c hc
    rw [values_listed hc]
    exact Json.allNumberless_iff.2 (List.forall_mem_map.2 fun e _ => e.2.numberless_listed e.1)
  constructor
  · intro h
    have hvalues := Json.array.inj (Json.compact_inj (hnumberless hc) (hnumberless hc') h)
    rw [values_listed hc, values_listed hc'] at hvalues
    have hentries := (List.map_inj_right fun e e' heq => Prod.ext_iff.2 (Declaration.listed_inj heq)).1 hvalues
    -- a map is its entries
    generalize NameMap.map Function.declaration c = m at hentries ⊢
    generalize NameMap.map Function.declaration c' = m' at hentries ⊢
    cases m
    cases m'
    cases hentries
    rfl
  · intro h
    rw [listing, listing, values_listed hc, values_listed hc', h]

/-- **The same names with the same declared inputs, output and supported backends.** -/
structure SameDeclarations (c c' : Catalog) : Prop where
  names : ∀ name, c.contains name = c'.contains name
  inputs : ∀ name f f', c.find? name = some f → c'.find? name = some f' → f.signature.inputs = f'.signature.inputs
  output : ∀ name f f', c.find? name = some f → c'.find? name = some f' → f.signature.output = f'.signature.output
  backends : ∀ name f f', c.find? name = some f → c'.find? name = some f' → ∀ b, f.supports b = f'.supports b

theorem declaration_eq_iff {f f' : Function} : f.declaration = f'.declaration ↔
    f.signature.inputs = f'.signature.inputs ∧ f.signature.output = f'.signature.output ∧
      ∀ b, f.supports b = f'.supports b := by
  rw [Function.declaration, Function.declaration, Declaration.mk.injEq, Backend.filter_all_inj, ← and_assoc]
  refine and_congr_left' ?_
  cases f.signature
  cases f'.signature
  rw [Signature.mk.injEq]

theorem map_declaration_eq_iff :
    NameMap.map Function.declaration c = NameMap.map Function.declaration c' ↔ SameDeclarations c c' := by
  constructor
  · intro h
    have hfind : ∀ name, (c.find? name).map Function.declaration = (c'.find? name).map Function.declaration := by
      intro name
      rw [← NameMap.find?_map, ← NameMap.find?_map, h]
    have halike : ∀ {name f f'}, c.find? name = some f → c'.find? name = some f' → f.declaration = f'.declaration := by
      intro name f f' hf hf'
      have := hfind name
      rw [hf, hf'] at this
      exact Option.some.inj this
    refine ⟨fun name => ?_, fun name f f' hf hf' => (declaration_eq_iff.1 (halike hf hf')).1,
      fun name f f' hf hf' => (declaration_eq_iff.1 (halike hf hf')).2.1,
      fun name f f' hf hf' => (declaration_eq_iff.1 (halike hf hf')).2.2⟩
    rw [NameMap.contains, NameMap.contains, ← Option.isSome_map, hfind name, Option.isSome_map]
  · intro h
    refine NameMap.ext_find? fun name => ?_
    rw [NameMap.find?_map, NameMap.find?_map]
    have hname := h.names name
    rw [NameMap.contains, NameMap.contains] at hname
    cases hf : c.find? name with
    | none =>
      rw [hf] at hname
      rw [Option.isNone_iff_eq_none.1 (Option.isSome_eq_false_iff.1 hname.symm)]
    | some f =>
      rw [hf] at hname
      obtain ⟨f', hf'⟩ := Option.isSome_iff_exists.1 hname.symm
      rw [hf']
      exact congrArg some (declaration_eq_iff.2
        ⟨h.inputs name f f' hf hf', h.output name f f' hf hf', h.backends name f f' hf hf'⟩)

/-- **A listing is a fingerprint of what is declared**: catalogs that registering functions led to have the same listing
exactly if they declare the same, and no two dimensions are listed alike. -/
theorem listing_eq_iff (hc : c.Registered) (hc' : c'.Registered) :
    (c.listing = c'.listing ↔ SameDeclarations c c') ∧ ∀ d d' : Dimension, d.text = d'.text ↔ d = d' :=
  ⟨(listing_eq_iff_map (keyed_of_registered hc) (keyed_of_registered hc')).trans map_declaration_eq_iff,
    fun _ _ => Dimension.text_inj⟩

/-- A function of a name that is new to the catalog to start from. -/
def doubling : Draft := { plainAbs with name := "double", implementation := unary fun x => x + x }

/-- Neither the order nor the rule of a replacement is listed, but that it has no code of its own is. -/
theorem listing_eq_iff_replaced :
    let c := standard.after [plainAbs.function, doubling.function]
    let c' := standard.after [doubling.function, preservingAbs.function]
    let kept := standard.after [doubling.function]
    c.Registered ∧ c'.Registered ∧ kept.Registered ∧ c.listing = c'.listing ∧ c.listing ≠ kept.listing ∧
      Dimension.one.text ≠ (⟨1, 0, 0, 0, 0, 0, 0⟩ : Dimension).text := by
  intro c c' kept
  have hplain : ∃ d : Draft, d.build = .ok plainAbs.function := ⟨plainAbs, rfl⟩
  have hpreserving : ∃ d : Draft, d.build = .ok preservingAbs.function := ⟨preservingAbs, rfl⟩
  have hdoubling : ∃ d : Draft, d.build = .ok doubling.function := ⟨doubling, rfl⟩
  have hc : c.Registered := registered_after .standard (by simp [hplain, hdoubling])
  have hc' : c'.Registered := registered_after .standard (by simp [hpreserving, hdoubling])
  have hkept : kept.Registered := registered_after .standard (by simp [hdoubling])
  refine ⟨hc, hc', hkept, (listing_eq_iff hc hc').1.2 ?_, fun h => ?_, fun h => ?_⟩
  · exact map_declaration_eq_iff.1 rfl
  · have hbackends := ((listing_eq_iff hc hkept).1.1 h).backends "abs" plainAbs.function
      (Catalog.builtin "abs" Float.abs .preserve "#define abs fabs") rfl rfl .native
    exact absurd hbackends (by decide)
  · exact absurd (((listing_eq_iff hc hc').2 _ _).1 h) (by decide)

end Catalog
end FixedStep
