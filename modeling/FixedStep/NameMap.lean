/-!
# NameMap — values by name, in name order

A finite map whose entries stand in increasing order of their names, so that two maps with the same values under the
same names are equal and a listing does not depend on the order of insertion.
-/
namespace FixedStep

/-- Entries in which a name comes after every name before it. -/
def NamesIncrease {α : Type} (entries : List (String × α)) : Prop :=
  entries.Pairwise fun a b => a.1 < b.1

/-- The entries with a value put under a name, in place of the one that was there. -/
def insertEntry {α : Type} (name : String) (value : α) : List (String × α) → List (String × α)
  | [] => [(name, value)]
  | (n, v) :: rest =>
    if name < n then (name, value) :: (n, v) :: rest
    else if name = n then (name, value) :: rest
    else (n, v) :: insertEntry name value rest

/-- A name of the new entries is the inserted one or one that was there. -/
theorem mem_insertEntry {α : Type} (name : String) (value : α) : ∀ (entries : List (String × α)) (e : String × α),
    e ∈ insertEntry name value entries → e.1 = name ∨ e ∈ entries
  | [], e, h => by
    simp only [insertEntry, List.mem_singleton] at h
    exact Or.inl (by rw [h])
  | (n, v) :: rest, e, h => by
    simp only [insertEntry] at h
    split at h
    · rcases List.mem_cons.1 h with rfl | h
      · exact Or.inl rfl
      · exact Or.inr h
    · split at h
      · rcases List.mem_cons.1 h with rfl | h
        · exact Or.inl rfl
        · exact Or.inr (List.mem_cons_of_mem _ h)
      · rcases List.mem_cons.1 h with rfl | h
        · exact Or.inr List.mem_cons_self
        · rcases mem_insertEntry name value rest e h with h | h
          · exact Or.inl h
          · exact Or.inr (List.mem_cons_of_mem _ h)

theorem name_lt_of_not_lt_of_ne {a b : String} (h : ¬ a < b) (hne : a ≠ b) : b < a := by
  rcases Decidable.em (b < a) with hba | hba
  · exact hba
  · exact absurd (String.le_antisymm (String.not_lt.1 hba) (String.not_lt.1 h)) hne

/-- **Insertion keeps the order of the names.** -/
theorem namesIncrease_insertEntry {α : Type} (name : String) (value : α) : ∀ (entries : List (String × α)),
    NamesIncrease entries → NamesIncrease (insertEntry name value entries)
  | [], _ => List.pairwise_singleton _ _
  | (n, v) :: rest, h => by
    obtain ⟨hhead, htail⟩ := List.pairwise_cons.1 h
    simp only [insertEntry]
    split
    · rename_i hlt
      refine List.pairwise_cons.2 ⟨fun e he => ?_, h⟩
      rcases List.mem_cons.1 he with rfl | he
      · exact hlt
      · exact String.lt_trans hlt (hhead e he)
    · rename_i hge
      split
      · rename_i heq
        exact List.pairwise_cons.2 ⟨fun e he => by simpa [heq] using hhead e he, htail⟩
      · rename_i hne
        refine List.pairwise_cons.2 ⟨fun e he => ?_, namesIncrease_insertEntry name value rest htail⟩
        rcases mem_insertEntry name value rest e he with hname | hmem
        · simpa [hname] using name_lt_of_not_lt_of_ne hge hne
        · exact hhead e hmem

/-- Values by name, in name order. -/
structure NameMap (α : Type) where
  entries : List (String × α) := []
  increasing : NamesIncrease entries := by exact List.Pairwise.nil

namespace NameMap

variable {α β : Type}

def empty : NameMap α := {}

instance : Inhabited (NameMap α) := ⟨empty⟩

def find? (m : NameMap α) (name : String) : Option α := (m.entries.find? fun e => e.1 == name).map (·.2)

def contains (m : NameMap α) (name : String) : Bool := (m.find? name).isSome

/-- The map with a value under a name, in place of the one that was there. -/
def insert (m : NameMap α) (name : String) (value : α) : NameMap α :=
  ⟨insertEntry name value m.entries, namesIncrease_insertEntry name value m.entries m.increasing⟩

/-- The entries inserted in turn, so that the last one under a name stays. -/
def insertAll (m : NameMap α) (entries : List (String × α)) : NameMap α :=
  entries.foldl (fun m e => m.insert e.1 e.2) m

/-- The map of a list of entries, the last one under a name. -/
def ofList (entries : List (String × α)) : NameMap α := empty.insertAll entries

def names (m : NameMap α) : List String := m.entries.map (·.1)

def values (m : NameMap α) : List α := m.entries.map (·.2)

def size (m : NameMap α) : Nat := m.entries.length

end NameMap
end FixedStep
