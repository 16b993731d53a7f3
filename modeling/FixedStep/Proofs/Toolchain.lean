import Mathlib.Algebra.Group.Nat.Defs
import FixedStep.Toolchain
/-!
# Toolchain — what the key of a built program tells

The key's text is its parts joined by NUL characters: the command, the flags, the source.  Where no part has a NUL the
parts can be split off again, so equal texts have equal parts (`keyText_inj`).  One thing is lost: no flags at all are
joined to the same text as a single empty flag (`key_emptyFlag`).  Up to that the key tells builds apart, as far as the
digest does (`key_eq_iff`).
-/
namespace FixedStep

/-! ## Bytes -/

theorem toList_loop_eq (bytes : ByteArray) (i : Nat) (before : List UInt8) :
    ByteArray.toList.loop bytes i before = before.reverse ++ bytes.data.toList.drop i := by
  induction i, before using ByteArray.toList.loop.induct bytes with
  | case1 i before hlt ih =>
    have hlen : i < bytes.data.toList.length := by simpa using hlt
    have hbyte : bytes.get! i = bytes.data.toList[i] := by
      rw [Array.getElem_toList, ByteArray.get!]
      exact getElem!_pos bytes.data i hlt
    rw [ByteArray.toList.loop, if_pos hlt, ih, List.drop_eq_getElem_cons hlen, List.reverse_cons, List.append_assoc,
      List.singleton_append, hbyte]
  | case2 i before hge =>
    rw [ByteArray.toList.loop, if_neg hge, List.drop_of_length_le (by simpa using hge), List.append_nil]

/-- **Texts of equal bytes are equal.** -/
theorem utf8_inj {s s' : String} : s.toUTF8.toList = s'.toUTF8.toList ↔ s = s' := by
  refine ⟨fun h => ?_, fun h => h ▸ rfl⟩
  rw [ByteArray.toList, ByteArray.toList, toList_loop_eq, toList_loop_eq] at h
  exact String.toByteArray_inj.1 (ByteArray.ext (Array.toList_inj.1 h))

namespace Text

theorem hexDigit_inj : ∀ {m n : Nat}, m < 16 → n < 16 → hexDigit m = hexDigit n → m = n := by
  have hdecide : ∀ m n : Fin 16, hexDigit m = hexDigit n → m = n := by decide
  intro m n hm hn h
  exact congrArg Fin.val (hdecide ⟨m, hm⟩ ⟨n, hn⟩ h)

theorem length_hexFixed : ∀ width n : Nat, (hexFixed width n).length = width
  | 0, _ => rfl
  | width + 1, n => by rw [hexFixed, List.length_append, length_hexFixed, List.length_singleton]

/-- Digits of one width are of numbers that agree as far as that width shows. -/
theorem mod_eq_of_hexFixed : ∀ {width m n : Nat}, hexFixed width m = hexFixed width n → m % 16 ^ width = n % 16 ^ width
  | 0, _, _, _ => by rw [Nat.pow_zero, Nat.mod_one, Nat.mod_one]
  | width + 1, m, n, h => by
    obtain ⟨hhigh, hlow⟩ := List.append_inj h (by rw [length_hexFixed, length_hexFixed])
    have hlow := hexDigit_inj (Nat.mod_lt _ (by decide)) (Nat.mod_lt _ (by decide)) (List.singleton_inj.1 hlow)
    rw [Nat.pow_succ', Nat.mod_mul, Nat.mod_mul, hlow, mod_eq_of_hexFixed hhigh]

end Text

theorem hexWords_inj : ∀ {ws ws' : List UInt32}, ws.length = ws'.length →
    (ws.flatMap fun w => Text.hexFixed 8 w.toNat) = (ws'.flatMap fun w => Text.hexFixed 8 w.toNat) → ws = ws'
  | [], [], _, _ => rfl
  | w :: ws, w' :: ws', hlen, h => by
    obtain ⟨hhead, htail⟩ := List.append_inj h (by rw [Text.length_hexFixed, Text.length_hexFixed])
    have hlt : w.toNat < 16 ^ 8 := w.toNat_lt
    have hlt' : w'.toNat < 16 ^ 8 := w'.toNat_lt
    have hmod := Text.mod_eq_of_hexFixed hhead
    rw [Nat.mod_eq_of_lt hlt, Nat.mod_eq_of_lt hlt', UInt32.toNat_inj] at hmod
    rw [hmod, hexWords_inj (Nat.succ.inj hlen) htail]

namespace Toolchain

/-! ## The parts of a key -/

/-- No part of a build's key has a NUL character of its own. -/
structure NulFree (t : Toolchain) (source : String) : Prop where
  command : '\x00' ∉ t.command.toList
  flags : ∀ flag ∈ t.flags, '\x00' ∉ flag.toList
  source : '\x00' ∉ source.toList

/-- The flags as joining shows them: none at all look like an empty one. -/
def shownFlags (t : Toolchain) : List String := if t.flags = [] then [""] else t.flags

def keyParts (t : Toolchain) (source : String) : List String := t.command :: (t.shownFlags ++ [source])

theorem shownFlags_eq_iff {t t' : Toolchain} : t.shownFlags = t'.shownFlags ↔
    t.flags = t'.flags ∨ t.flags = [] ∧ t'.flags = [""] ∨ t.flags = [""] ∧ t'.flags = [] := by
  unfold shownFlags
  by_cases h : t.flags = []
  · by_cases h' : t'.flags = []
    · simp [h, h']
    · simp [h, h', Ne.symm h', eq_comm]
  · by_cases h' : t'.flags = []
    · simp [h, h']
    · simp [h, h']

theorem intercalate_shownFlags (t : Toolchain) : "\x00".intercalate t.flags = "\x00".intercalate t.shownFlags := by
  unfold shownFlags
  split
  · rename_i h
    rw [h]
    rfl
  · rfl

theorem shownFlags_ne_nil (t : Toolchain) : t.shownFlags ≠ [] := by
  unfold shownFlags
  split
  · exact List.cons_ne_nil _ _
  · assumption

theorem intercalate_concat {sep : List Char} {last : List Char} : ∀ {parts : List (List Char)}, parts ≠ [] →
    sep.intercalate (parts ++ [last]) = sep.intercalate parts ++ sep ++ last
  | [part], _ => by simp
  | part :: next :: parts, _ => by
    rw [List.cons_append, List.cons_append, List.intercalate_cons_cons, ← List.cons_append,
      intercalate_concat (List.cons_ne_nil _ _), List.intercalate_cons_cons]
    simp only [List.append_assoc]

/-- **The key's text is its parts, joined.** -/
theorem keyText_toList (t : Toolchain) (source : String) :
    (t.keyText source).toList = ['\x00'].intercalate ((t.keyParts source).map String.toList) := by
  have hshown : t.shownFlags.map String.toList ≠ [] := by
    rw [Ne, List.map_eq_nil_iff]
    exact t.shownFlags_ne_nil
  rw [keyParts, List.map_cons, List.map_append, List.map_singleton,
    List.intercalate_cons_of_ne_nil (by simp), intercalate_concat hshown, keyText, intercalate_shownFlags]
  simp [String.toList_intercalate]

theorem NulFree.keyParts {t : Toolchain} {source : String} (h : t.NulFree source) :
    ∀ part ∈ (t.keyParts source).map String.toList, '\x00' ∉ part := by
  intro part hpart
  obtain ⟨text, htext, rfl⟩ := List.mem_map.1 hpart
  rcases List.mem_cons.1 htext with rfl | htext
  · exact h.command
  · rcases List.mem_append.1 htext with htext | htext
    · unfold shownFlags at htext
      split at htext
      · rw [List.mem_singleton.1 htext]
        exact List.not_mem_nil
      · exact h.flags text htext
    · rw [List.mem_singleton.1 htext]
      exact h.source

/-- **Equal key texts are of equal parts**, where no part has the character that joins them. -/
theorem keyText_inj {t t' : Toolchain} {source source' : String} (h : t.NulFree source) (h' : t'.NulFree source') :
    t.keyText source = t'.keyText source' ↔
      t.command = t'.command ∧ source = source' ∧ t.shownFlags = t'.shownFlags := by
  have hparts : t.keyText source = t'.keyText source' ↔ t.keyParts source = t'.keyParts source' := by
    rw [← String.toList_inj, keyText_toList, keyText_toList]
    constructor
    · intro heq
      have hsplit := congrArg (List.splitOn '\x00') heq
      rw [List.splitOn_intercalate _ h.keyParts (by simp [Toolchain.keyParts]),
        List.splitOn_intercalate _ h'.keyParts (by simp [Toolchain.keyParts])] at hsplit
      exact (List.map_inj_right fun _ _ => String.toList_inj.1).1 hsplit
    · intro heq
      rw [heq]
  rw [hparts, Toolchain.keyParts, Toolchain.keyParts, List.cons.injEq]
  constructor
  · rintro ⟨hcommand, hrest⟩
    obtain ⟨hflags, hsource⟩ := List.append_inj' hrest rfl
    exact ⟨hcommand, List.singleton_inj.1 hsource, hflags⟩
  · rintro ⟨hcommand, rfl, hflags⟩
    exact ⟨hcommand, by rw [hflags]⟩

theorem key_inj {t t' : Toolchain} {source source' : String} : t.key source = t'.key source' ↔
    Sha256.digest (t.keyText source).toUTF8.toList = Sha256.digest (t'.keyText source').toUTF8.toList := by
  refine ⟨fun h => hexWords_inj rfl (String.ofList_injective h), fun h => ?_⟩
  rw [key, key, h]

/-! ## Builds told apart -/

/-- **What the key tells.**  Of builds without NUL characters the digested bytes are equal exactly when the commands and
the sources are and the flags are the same list, an empty list counting as a single empty flag.  Where the digest tells
the bytes apart, so do the keys. -/
theorem key_eq_iff (t t' : Toolchain) (source source' : String) (h : t.NulFree source) (h' : t'.NulFree source') :
    ((t.keyText source).toUTF8.toList = (t'.keyText source').toUTF8.toList ↔
      t.command = t'.command ∧ source = source' ∧
        (t.flags = t'.flags ∨ t.flags = [] ∧ t'.flags = [""] ∨ t.flags = [""] ∧ t'.flags = [])) ∧
    ((Sha256.digest (t.keyText source).toUTF8.toList = Sha256.digest (t'.keyText source').toUTF8.toList →
        (t.keyText source).toUTF8.toList = (t'.keyText source').toUTF8.toList) →
      (t.key source = t'.key source' ↔
        (t.keyText source).toUTF8.toList = (t'.keyText source').toUTF8.toList)) := by
  refine ⟨by rw [utf8_inj, keyText_inj h h', shownFlags_eq_iff], fun hcollision => ?_⟩
  rw [key_inj]
  exact ⟨hcollision, fun heq => by rw [heq]⟩

/-- A command with its flags, of whose programs none is in its place. -/
def idle (command : String) (flags : List String) : Toolchain :=
  ⟨command, flags, none, fun _ _ => .error (.host "No such file or directory (os error 2)")⟩

/-- A flag that is empty tells two builds apart when it stands beside another. -/
theorem key_eq_iff_secondFlag : NulFree (idle "c++" ["-O2"]) "x" ∧ NulFree (idle "c++" ["-O2", ""]) "x" ∧
    (keyText (idle "c++" ["-O2"]) "x").toUTF8.toList ≠ (keyText (idle "c++" ["-O2", ""]) "x").toUTF8.toList := by
  have h : NulFree (idle "c++" ["-O2"]) "x" := ⟨by decide, by decide, by decide⟩
  have h' : NulFree (idle "c++" ["-O2", ""]) "x" := ⟨by decide, by decide, by decide⟩
  refine ⟨h, h', fun heq => ?_⟩
  obtain ⟨-, -, hflags⟩ := (key_eq_iff _ _ _ _ h h').1.1 heq
  simp [idle] at hflags

/-- **An empty flag that stands alone is lost**: with it and without any flag the keys are one. -/
theorem key_emptyFlag : NulFree (idle "c++" []) "x" ∧ NulFree (idle "c++" [""]) "x" ∧
    (keyText (idle "c++" []) "x").toUTF8.toList = (keyText (idle "c++" [""]) "x").toUTF8.toList ∧
    key (idle "c++" []) "x" = key (idle "c++" [""]) "x" ∧ ([] : List String) ≠ [""] := by
  have htext : keyText (idle "c++" []) "x" = keyText (idle "c++" [""]) "x" := rfl
  refine ⟨⟨by decide, by decide, by decide⟩, ⟨by decide, by decide, by decide⟩, ?_, ?_, (List.cons_ne_nil _ _).symm⟩
  · rw [htext]
  · rw [key, key, htext]

end Toolchain
end FixedStep
