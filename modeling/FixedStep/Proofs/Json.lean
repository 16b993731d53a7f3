import FixedStep.Json.Reading
import Mathlib.Data.List.Basic
/-!
# Json — a compact text is of one value

A string is read back from its text (`readString_quote`), so its text shows where it ends.  The same holds of arrays and
objects of such values: what follows a text can be told from the text (`apart_of_numberless`), and values without
numbers that have equal compact texts are equal (`compact_inj`).  Numbers are left out because all that are not finite
are written alike.
-/
namespace FixedStep
namespace Json

/-! ## Strings -/

/-- The four digits of a control character. -/
theorem hexFixed_control : ∀ n : Fin 0x20,
    Text.hexFixed 4 n.val = ['0', '0', Text.hexDigit (n.val / 16), Text.hexDigit (n.val % 16)] ∧
      Text.hexValue? (Text.hexDigit (n.val / 16)) = some (n.val / 16) ∧
      Text.hexValue? (Text.hexDigit (n.val % 16)) = some (n.val % 16) := by
  decide

theorem hexQuad_hexFixed {n : Nat} (hn : n < 0x20) (rest : List Char) :
    hexQuad (Text.hexFixed 4 n ++ rest) = .ok (n, rest) := by
  obtain ⟨hdigits, hhigh, hlow⟩ := hexFixed_control ⟨n, hn⟩
  have hzero : Text.hexValue? '0' = some 0 := by decide
  have hvalue : ((0 * 16 + 0) * 16 + n / 16) * 16 + n % 16 = n := by omega
  dsimp only at hdigits hhigh hlow
  simp only [hdigits, List.cons_append, List.nil_append, hexQuad, hzero, hhigh, hlow, hvalue]

theorem unicodeEscape_hexFixed {c : Char} (h : c.toNat < 0x20) (rest : List Char) :
    unicodeEscape (Text.hexFixed 4 c.toNat ++ rest) = .ok (c, rest) := by
  unfold unicodeEscape
  rw [hexQuad_hexFixed h rest]
  simp only [bind, Except.bind]
  rw [if_neg (by omega), if_pos (by omega), Char.ofNat_toNat]

/-- One character is read back, whatever it is written as. -/
theorem stringRest_quotedChar (fuel : Nat) (done : List Char) (c : Char) (rest : List Char) :
    stringRest (fuel + 1) done (quotedChar c ++ rest) = stringRest fuel (c :: done) rest := by
  unfold quotedChar
  split_ifs with hquote hslash hbackspace hfeed hline hreturn htab hcontrol
  -- the characters with a letter of their own
  iterate 7 · subst c; rfl
  · rw [List.cons_append, List.cons_append, stringRest, unicodeEscape_hexFixed hcontrol]
    rfl
  · rw [List.cons_append, List.nil_append, stringRest, if_neg hcontrol]
    · exact hquote
    · exact hslash

theorem stringRest_quotedChars : ∀ (cs : List Char) {fuel : Nat} (_ : cs.length < fuel) (done rest : List Char),
    stringRest fuel done (cs.flatMap quotedChar ++ '"' :: rest) = .ok (String.ofList (done.reverse ++ cs), rest)
  | [], fuel + 1, _, done, rest => by
    rw [List.append_nil]
    rfl
  | c :: cs, fuel + 1, h, done, rest => by
    have hlength : cs.length < fuel := by simpa using h
    rw [List.flatMap_cons, List.append_assoc, stringRest_quotedChar, stringRest_quotedChars cs hlength,
      List.reverse_cons, List.append_assoc]
    rfl

theorem quotedChar_ne_nil (c : Char) : quotedChar c ≠ [] := by
  unfold quotedChar
  split_ifs <;> exact List.cons_ne_nil _ _

theorem length_le_quotedChars : ∀ cs : List Char, cs.length ≤ (cs.flatMap quotedChar).length
  | [] => Nat.le_refl 0
  | c :: cs => by
    have hrest := length_le_quotedChars cs
    have hc : 0 < (quotedChar c).length := List.length_pos_iff.2 (quotedChar_ne_nil c)
    rw [List.flatMap_cons, List.length_append, List.length_cons]
    omega

theorem quote_toList (s : String) : (quote s).toList = '"' :: (s.toList.flatMap quotedChar ++ ['"']) := by
  rw [quote, String.toList_ofList, List.cons_append]

/-- **A string is read back from its text**, with anything behind it. -/
theorem readString_quote (s : String) (rest : List Char) :
    readString ((quote s).toList.tail ++ rest) = .ok (s, rest) := by
  have hlength := length_le_quotedChars s.toList
  rw [quote_toList, List.tail_cons, List.append_assoc, readString, List.singleton_append,
    stringRest_quotedChars _ (by rw [List.length_append]; omega), List.reverse_nil, List.nil_append,
    String.ofList_toList]

theorem quote_append_inj {s t : String} {rest rest' : List Char}
    (h : (quote s).toList ++ rest = (quote t).toList ++ rest') : s = t ∧ rest = rest' := by
  have htail : (quote s).toList.tail ++ rest = (quote t).toList.tail ++ rest' := by
    have := congrArg List.tail h
    rwa [quote_toList, quote_toList] at this ⊢
  have hread := congrArg readString htail
  rw [readString_quote, readString_quote, Except.ok.injEq, Prod.mk.injEq] at hread
  exact hread

/-! ## Texts one after the other -/

section Separated

variable {α : Type} {text : α → List Char}

/-- The text of `x` shows where it ends, among the texts of what satisfies `p`. -/
def Apart (text : α → List Char) (p : α → Prop) (x : α) : Prop :=
  ∀ y, p y → ∀ rest rest', text x ++ rest = text y ++ rest' → x = y ∧ rest = rest'

/-- The items with commas between them, up to the closing bracket. -/
def upTo (text : α → List Char) (close : Char) (xs : List α) (rest : List Char) : List Char :=
  [','].intercalate (xs.map text) ++ close :: rest

/-- What stands behind an item: the other items, each after a comma, and the closing bracket. -/
def behind (text : α → List Char) (close : Char) : List α → List Char → List Char
  | [], rest => close :: rest
  | x :: xs, rest => ',' :: (text x ++ behind text close xs rest)

theorem upTo_cons (close : Char) : ∀ (x : α) (xs : List α) (rest : List Char),
    upTo text close (x :: xs) rest = text x ++ behind text close xs rest
  | x, [], rest => by
    rw [upTo, List.map_singleton, List.intercalate_singleton]
    rfl
  | x, y :: ys, rest => by
    have hrest := upTo_cons close y ys rest
    rw [upTo, List.map_cons] at hrest
    rw [upTo, List.map_cons, List.map_cons, List.intercalate_cons_cons, List.append_assoc, List.append_assoc, hrest]
    rfl

variable {p : α → Prop} {close : Char} {rest rest' : List Char}

theorem behind_inj (hcomma : close ≠ ',') : ∀ {xs ys : List α}, (∀ x ∈ xs, Apart text p x) → (∀ y ∈ ys, p y) →
    behind text close xs rest = behind text close ys rest' → xs = ys ∧ rest = rest'
  | [], [], _, _, h => ⟨rfl, List.tail_eq_of_cons_eq h⟩
  | [], _ :: _, _, _, h => absurd (List.head_eq_of_cons_eq h) hcomma
  | _ :: _, [], _, _, h => absurd (List.head_eq_of_cons_eq h).symm hcomma
  | x :: xs, y :: ys, hxs, hys, h => by
    obtain ⟨hx, hxs⟩ := List.forall_mem_cons.1 hxs
    obtain ⟨hy, hothers⟩ := List.forall_mem_cons.1 hys
    obtain ⟨rfl, hbehind⟩ := hx y hy _ _ (List.tail_eq_of_cons_eq h)
    obtain ⟨rfl, hrest⟩ := behind_inj hcomma hxs hothers hbehind
    exact ⟨rfl, hrest⟩

/-- **Items that show where they end are told from their texts in a row**, if the closing bracket is none of their
beginnings. -/
theorem upTo_inj (hcomma : close ≠ ',') (hclose : ∀ x, p x → ∀ rest rest', text x ++ rest ≠ close :: rest')
    {xs ys : List α} (happart : ∀ x ∈ xs, Apart text p x) (hxs : ∀ x ∈ xs, p x) (hys : ∀ y ∈ ys, p y)
    (h : upTo text close xs rest = upTo text close ys rest') : xs = ys ∧ rest = rest' := by
  cases xs with
  | nil =>
    cases ys with
    | nil => exact ⟨rfl, List.tail_eq_of_cons_eq h⟩
    | cons y ys =>
      rw [upTo_cons] at h
      exact absurd h.symm (hclose y (hys y List.mem_cons_self) _ _)
  | cons x xs =>
    cases ys with
    | nil =>
      rw [upTo_cons] at h
      exact absurd h (hclose x (hxs x List.mem_cons_self) _ _)
    | cons y ys =>
      rw [upTo_cons, upTo_cons] at h
      obtain ⟨hx, happart⟩ := List.forall_mem_cons.1 happart
      obtain ⟨hy, hothers⟩ := List.forall_mem_cons.1 hys
      obtain ⟨rfl, hbehind⟩ := hx y hy _ _ h
      obtain ⟨rfl, hrest⟩ := behind_inj hcomma happart hothers hbehind
      exact ⟨rfl, hrest⟩

end Separated

/-! ## Values without numbers -/

mutual

def Numberless : Json → Prop
  | null => True
  | number _ => False
  | string _ => True
  | array items => AllNumberless items
  | object fields => FieldsNumberless fields

def AllNumberless : List Json → Prop
  | [] => True
  | v :: vs => v.Numberless ∧ AllNumberless vs

def FieldsNumberless : List (String × Json) → Prop
  | [] => True
  | (_, v) :: fields => v.Numberless ∧ FieldsNumberless fields

end

theorem allNumberless_iff : ∀ {vs : List Json}, AllNumberless vs ↔ ∀ v ∈ vs, v.Numberless
  | [] => by simp [AllNumberless]
  | v :: vs => by rw [AllNumberless, allNumberless_iff, List.forall_mem_cons]

theorem fieldsNumberless_iff : ∀ {fields : List (String × Json)},
    FieldsNumberless fields ↔ ∀ field ∈ fields, field.2.Numberless
  | [] => by simp [FieldsNumberless]
  | (name, v) :: fields => by rw [FieldsNumberless, fieldsNumberless_iff, List.forall_mem_cons]

def characters (v : Json) : List Char := v.compact.toList

def fieldCharacters (field : String × Json) : List Char := (quote field.1).toList ++ ':' :: field.2.characters

theorem compactItems_eq_map : ∀ vs : List Json, compactItems vs = vs.map compact
  | [] => rfl
  | v :: vs => congrArg (v.compact :: ·) (compactItems_eq_map vs)

theorem compactFields_eq_map : ∀ fields : List (String × Json),
    compactFields fields = fields.map fun field => quote field.1 ++ ":" ++ field.2.compact
  | [] => rfl
  | (name, v) :: fields => congrArg ((quote name ++ ":" ++ v.compact) :: ·) (compactFields_eq_map fields)

theorem characters_array (items : List Json) (rest : List Char) :
    (array items).characters ++ rest = '[' :: upTo characters ']' items rest := by
  rw [characters, compact, compactItems_eq_map, String.toList_append, String.toList_append, String.toList_intercalate,
    List.map_map, List.append_assoc, List.append_assoc]
  rfl

theorem characters_object (fields : List (String × Json)) (rest : List Char) :
    (object fields).characters ++ rest = '\x7b' :: upTo fieldCharacters '\x7d' fields rest := by
  have htext : String.toList ∘ (fun field : String × Json => quote field.1 ++ ":" ++ field.2.compact) =
      fieldCharacters := by
    funext field
    rw [Function.comp_apply, String.toList_append, String.toList_append, List.append_assoc]
    rfl
  rw [characters, compact, compactFields_eq_map, String.toList_append, String.toList_append, String.toList_intercalate,
    List.map_map, htext, List.append_assoc, List.append_assoc]
  rfl

/-- The first character of a value's text. -/
def lead : Json → Char
  | null => 'n'
  | number _ => '0'
  | string _ => '"'
  | array _ => '['
  | object _ => '\x7b'

theorem exists_characters_eq {v : Json} (h : v.Numberless) (rest : List Char) :
    ∃ more, v.characters ++ rest = v.lead :: more := by
  cases v with
  | null => exact ⟨_, rfl⟩
  | number x => exact h.elim
  | string s =>
    rw [characters, compact, quote_toList]
    exact ⟨_, rfl⟩
  | array items => exact ⟨_, characters_array items rest⟩
  | object fields => exact ⟨_, characters_object fields rest⟩

theorem lead_eq_of_characters {v w : Json} (hv : v.Numberless) (hw : w.Numberless) {rest rest' : List Char}
    (h : v.characters ++ rest = w.characters ++ rest') : v.lead = w.lead := by
  obtain ⟨more, hmore⟩ := exists_characters_eq hv rest
  obtain ⟨more', hmore'⟩ := exists_characters_eq hw rest'
  rw [hmore, hmore'] at h
  exact List.head_eq_of_cons_eq h

theorem characters_ne_close {v : Json} (hv : v.Numberless) (rest rest' : List Char) :
    v.characters ++ rest ≠ ']' :: rest' := by
  obtain ⟨more, hmore⟩ := exists_characters_eq hv rest
  intro h
  have hlead : v.lead = ']' := List.head_eq_of_cons_eq (hmore.symm.trans h)
  cases v <;> simp [lead] at hlead

theorem fieldCharacters_ne_close (field : String × Json) (rest rest' : List Char) :
    fieldCharacters field ++ rest ≠ '\x7d' :: rest' := by
  rw [fieldCharacters, quote_toList]
  intro h
  exact absurd (List.head_eq_of_cons_eq h) (by decide)

theorem fieldCharacters_apart {name : String} {v : Json} (h : Apart characters Numberless v) :
    Apart fieldCharacters (fun field => field.2.Numberless) (name, v) := by
  rintro ⟨name', w⟩ hw rest rest' heq
  rw [fieldCharacters, fieldCharacters, List.append_assoc, List.append_assoc] at heq
  obtain ⟨rfl, heq⟩ := quote_append_inj heq
  obtain ⟨rfl, hrest⟩ := h w hw _ _ (List.tail_eq_of_cons_eq heq)
  exact ⟨rfl, hrest⟩

mutual

/-- **The text of a value without numbers shows where it ends.** -/
theorem apart_of_numberless : ∀ {v : Json}, v.Numberless → Apart characters Numberless v
  | .null, hv => by
    intro w hw rest rest' h
    -- texts that begin alike are of values of one kind
    have hlead := lead_eq_of_characters hv hw h
    cases w with
    | null => exact ⟨rfl, List.append_cancel_left h⟩
    | number | string | array | object => simp [lead] at hlead
  | .string s, hv => by
    intro w hw rest rest' h
    have hlead := lead_eq_of_characters hv hw h
    cases w with
    | string t =>
      obtain ⟨rfl, hrest⟩ := quote_append_inj h
      exact ⟨rfl, hrest⟩
    | null | number | array | object => simp [lead] at hlead
  | .array items, hv => by
    intro w hw rest rest' h
    have hlead := lead_eq_of_characters hv hw h
    cases w with
    | array items' =>
      rw [characters_array, characters_array] at h
      obtain ⟨rfl, hrest⟩ := upTo_inj (by decide) (fun _ => characters_ne_close) (apart_of_allNumberless hv)
        (allNumberless_iff.1 hv) (allNumberless_iff.1 hw) (List.tail_eq_of_cons_eq h)
      exact ⟨rfl, hrest⟩
    | null | number | string | object => simp [lead] at hlead
  | .object fields, hv => by
    intro w hw rest rest' h
    have hlead := lead_eq_of_characters hv hw h
    cases w with
    | object fields' =>
      rw [characters_object, characters_object] at h
      obtain ⟨rfl, hrest⟩ := upTo_inj (by decide) (fun field _ => fieldCharacters_ne_close field)
        (apart_of_fieldsNumberless hv) (fieldsNumberless_iff.1 hv) (fieldsNumberless_iff.1 hw)
        (List.tail_eq_of_cons_eq h)
      exact ⟨rfl, hrest⟩
    | null | number | string | array => simp [lead] at hlead

theorem apart_of_allNumberless : ∀ {vs : List Json}, AllNumberless vs → ∀ v ∈ vs, Apart characters Numberless v
  | [], _ => nofun
  | _ :: _, h => List.forall_mem_cons.2 ⟨apart_of_numberless h.1, apart_of_allNumberless h.2⟩

theorem apart_of_fieldsNumberless : ∀ {fields : List (String × Json)}, FieldsNumberless fields →
    ∀ field ∈ fields, Apart fieldCharacters (fun field => field.2.Numberless) field
  | [], _ => nofun
  | (_, _) :: _, h =>
    List.forall_mem_cons.2 ⟨fieldCharacters_apart (apart_of_numberless h.1), apart_of_fieldsNumberless h.2⟩

end

/-- **Values without numbers that have the same compact text are the same.** -/
theorem compact_inj {v w : Json} (hv : v.Numberless) (hw : w.Numberless) (h : v.compact = w.compact) : v = w :=
  (apart_of_numberless hv w hw [] [] (by rw [characters, characters, h])).1

end Json
end FixedStep
