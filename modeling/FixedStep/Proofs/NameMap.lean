import FixedStep.NameMap
/-!
# NameMap — what is found under a name

Looking a name up after an insertion finds the inserted value under its name and what was there under every other one.
Maps in which the same is found are equal (`ext_find?`).
-/
namespace FixedStep

theorem find?_insertEntry {α : Type} (name : String) (value : α) (other : String) : ∀ (entries : List (String × α)),
    ((insertEntry name value entries).find? fun e => e.1 == other).map (·.2) =
      if name = other then some value else (entries.find? fun e => e.1 == other).map (·.2)
  | [] => by
    by_cases h : name = other <;> simp [insertEntry, h]
  | (n, v) :: rest => by
    rw [insertEntry]
    split
    · by_cases h : name = other <;> simp [h]
    · split
      · rename_i heq
        by_cases h : name = other
        · simp [h]
        · simp [h, ← heq]
      · rename_i hne
        by_cases hn : n = other
        · have h : name ≠ other := fun h => hne (h.trans hn.symm)
          simp [hn, h]
        · rw [List.find?_cons_of_neg (by simpa using hn), find?_insertEntry name value other rest,
            List.find?_cons_of_neg (by simpa using hn)]

namespace NameMap

variable {α : Type}

theorem find?_insert (m : NameMap α) (name : String) (value : α) (other : String) :
    (m.insert name value).find? other = if name = other then some value else m.find? other :=
  find?_insertEntry name value other m.entries

theorem find?_empty (name : String) : (empty : NameMap α).find? name = none := rfl

/-- What is found after entries were inserted was among them or there before. -/
theorem mem_or_find?_of_insertAll {name : String} {value : α} : ∀ {entries : List (String × α)} {m : NameMap α},
    (m.insertAll entries).find? name = some value → (name, value) ∈ entries ∨ m.find? name = some value
  | [], _, h => .inr h
  | (n, v) :: entries, m, h => by
    rcases mem_or_find?_of_insertAll (m := m.insert n v) h with hmem | hfound
    · exact .inl (List.mem_cons_of_mem _ hmem)
    · rw [find?_insert] at hfound
      split at hfound
      · rename_i hname
        obtain rfl := Option.some.inj hfound
        exact .inl (hname ▸ List.mem_cons_self)
      · exact .inr hfound

theorem isSome_find?_insertAll (name : String) : ∀ (entries : List (String × α)) (m : NameMap α),
    ((m.insertAll entries).find? name).isSome ↔ (m.find? name).isSome ∨ name ∈ entries.map (·.1)
  | [], m => by simp [insertAll]
  | (n, v) :: entries, m => by
    refine (isSome_find?_insertAll name entries (m.insert n v)).trans ?_
    rw [find?_insert, List.map_cons, List.mem_cons]
    by_cases h : n = name
    · simp [h]
    · simp [h, Ne.symm h]

theorem find?_insertAll_of_not_mem {name : String} : ∀ {entries : List (String × α)} {m : NameMap α},
    name ∉ entries.map (·.1) → (m.insertAll entries).find? name = m.find? name
  | [], _, _ => rfl
  | (n, v) :: entries, m, h => by
    rw [List.map_cons, List.mem_cons, not_or] at h
    refine (find?_insertAll_of_not_mem h.2).trans ?_
    rw [find?_insert, if_neg (Ne.symm h.1)]

/-- **Entries of distinct names are all found** after they were inserted. -/
theorem find?_insertAll_of_mem {name : String} {value : α} : ∀ {entries : List (String × α)} {m : NameMap α},
    (entries.map (·.1)).Nodup → (name, value) ∈ entries → (m.insertAll entries).find? name = some value
  | (n, v) :: entries, m, hdistinct, hmem => by
    obtain ⟨hhead, htail⟩ := List.nodup_cons.1 hdistinct
    rcases List.mem_cons.1 hmem with heq | hmem
    · obtain ⟨rfl, rfl⟩ := Prod.mk.inj heq
      refine (find?_insertAll_of_not_mem hhead).trans ?_
      rw [find?_insert, if_pos rfl]
    · exact find?_insertAll_of_mem (m := m.insert n v) htail hmem

theorem find?_of_mem {name : String} {value : α} : ∀ {entries : List (String × α)}, NamesIncrease entries →
    (name, value) ∈ entries → (entries.find? fun e => e.1 == name).map (·.2) = some value
  | (n, v) :: entries, hincrease, hmem => by
    obtain ⟨hhead, htail⟩ := List.pairwise_cons.1 hincrease
    rcases List.mem_cons.1 hmem with heq | hmem
    · obtain ⟨rfl, rfl⟩ := Prod.mk.inj heq
      simp
    · have hne : n ≠ name := fun h => String.lt_irrefl name (h ▸ hhead _ hmem)
      rw [List.find?_cons_of_neg (by simpa using hne), find?_of_mem htail hmem]

/-- **The entries of a map are what is found in it.** -/
theorem mem_entries_iff {m : NameMap α} {name : String} {value : α} :
    (name, value) ∈ m.entries ↔ m.find? name = some value := by
  constructor
  · exact find?_of_mem m.increasing
  · intro h
    obtain ⟨⟨n, v⟩, hfound, rfl⟩ := Option.map_eq_some_iff.1 h
    have hname : n = name := by simpa using List.find?_some hfound
    exact hname ▸ List.mem_of_find?_eq_some hfound

/-- **Maps in which the same is found are equal.** -/
theorem ext_find? {m m' : NameMap α} (h : ∀ name, m.find? name = m'.find? name) : m = m' := by
  have hne : ∀ {entries : List (String × α)}, NamesIncrease entries → entries.Nodup := by
    intro entries hincrease
    refine List.Pairwise.imp (fun {a b} hlt heq => ?_) hincrease
    subst heq
    exact String.lt_irrefl _ hlt
  have hmem : ∀ e, e ∈ m.entries ↔ e ∈ m'.entries := fun ⟨name, value⟩ => by
    rw [mem_entries_iff, mem_entries_iff, h]
  have hperm := (List.perm_ext_iff_of_nodup (hne m.increasing) (hne m'.increasing)).2 hmem
  have hentries := hperm.eq_of_pairwise
    (fun _ _ _ _ hlt hgt => absurd (String.lt_trans hlt hgt) (String.lt_irrefl _)) m.increasing m'.increasing
  cases m
  cases m'
  cases hentries
  rfl

theorem mem_of_mem_ofList {name : String} {value : α} {entries : List (String × α)}
    (h : (name, value) ∈ (ofList entries).entries) : (name, value) ∈ entries := by
  rcases mem_or_find?_of_insertAll (mem_entries_iff.1 h) with hmem | hfound
  · exact hmem
  · cases hfound

/-- **The order of entries with distinct names does not matter.** -/
theorem ofList_perm {entries entries' : List (String × α)} (hperm : entries.Perm entries')
    (hdistinct : (entries.map (·.1)).Nodup) : ofList entries = ofList entries' := by
  have hdistinct' : (entries'.map (·.1)).Nodup := (hperm.map _).nodup_iff.1 hdistinct
  refine ext_find? fun name => ?_
  by_cases hname : name ∈ entries.map (·.1)
  · obtain ⟨⟨n, value⟩, hmem, rfl⟩ := List.mem_map.1 hname
    exact (find?_insertAll_of_mem hdistinct hmem).trans (find?_insertAll_of_mem hdistinct' (hperm.mem_iff.1 hmem)).symm
  · have hname' : name ∉ entries'.map (·.1) := fun h => hname ((hperm.map _).mem_iff.2 h)
    exact (find?_insertAll_of_not_mem hname).trans (find?_insertAll_of_not_mem hname').symm

/-! ## Every value changed alike -/

variable {β : Type}

theorem namesIncrease_map (f : α → β) {entries : List (String × α)} (h : NamesIncrease entries) :
    NamesIncrease (entries.map fun e => (e.1, f e.2)) := List.pairwise_map.2 h

/-- The map with a function applied to every value. -/
def map (f : α → β) (m : NameMap α) : NameMap β :=
  ⟨m.entries.map fun e => (e.1, f e.2), namesIncrease_map f m.increasing⟩

theorem find?_map (f : α → β) (m : NameMap α) (name : String) : (m.map f).find? name = (m.find? name).map f := by
  rw [find?, map, List.find?_map, Option.map_map, find?, Option.map_map]
  rfl

theorem map_insertAll (f : α → β) : ∀ (entries : List (String × α)) (m : NameMap α),
    (m.insertAll entries).map f = (m.map f).insertAll (entries.map fun e => (e.1, f e.2))
  | [], _ => rfl
  | (n, v) :: entries, m => by
    have hinsert : (m.insert n v).map f = (m.map f).insert n (f v) := by
      refine ext_find? fun name => ?_
      rw [find?_map, find?_insert, find?_insert, find?_map]
      split <;> rfl
    refine (map_insertAll f entries (m.insert n v)).trans ?_
    rw [hinsert]
    rfl

theorem map_ofList (f : α → β) (entries : List (String × α)) :
    (ofList entries).map f = ofList (entries.map fun e => (e.1, f e.2)) := map_insertAll f entries empty

end NameMap
end FixedStep
