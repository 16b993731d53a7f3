import FixedStep.Token.Scan
/-!
# Token — how the pieces of a text are read

The first character decides how a piece is read, and the walk goes on behind it (`pieces_drop`).  A name is made of
letters, digits and underscores, wherever it stands (`scan_name`).
-/
namespace FixedStep

/-- What holds of a character holds of the first one of a text that begins with it. -/
theorem forall_head_cons {p : Char → Prop} {c : Char} (h : p c) (cs : List Char) : ∀ d ∈ (c :: cs).head?, p d := by
  intro d hd
  obtain rfl := Option.some.inj hd
  exact h

namespace Lexeme

theorem isNameRest_of_isNameStart {c : Char} (h : isNameStart c) : isNameRest c := by
  simp only [isNameStart, Bool.or_eq_true] at h
  simp only [isNameRest, Char.isAlphanum, Bool.or_eq_true]
  exact h.imp .inl id

theorem isNameRest_of_isDigit {c : Char} (h : c.isDigit) : isNameRest c := by
  simp [isNameRest, Char.isAlphanum, h]

theorem not_isNameStart_of_isDigit {c : Char} (h : c.isDigit) : isNameStart c = false := by
  obtain ⟨-, hdigit⟩ := Char.isDigit_iff_toNat.1 h
  have hbelow : ∀ {low : UInt32}, 57 < low.toNat → ¬ c.val ≥ low := by
    intro low hlow
    rw [ge_iff_le, UInt32.le_iff_toNat_le]
    exact Nat.not_le_of_lt (Nat.lt_of_le_of_lt hdigit hlow)
  have halpha : c.isAlpha = false := by
    have hupper : c.isUpper = false := decide_eq_false fun hletter => hbelow (by decide) hletter.1
    have hlower : c.isLower = false :=
      Bool.and_eq_false_iff.2 (.inl (decide_eq_false (hbelow (by decide))))
    exact Bool.or_eq_false_iff.2 ⟨hupper, hlower⟩
  have hne : c ≠ '_' := by
    rintro rfl
    cases h
  rw [isNameStart, halpha, Bool.false_or, beq_eq_false_iff_ne]
  exact hne

/-- The characters of names and numbers are no blanks, and begin no comment and no line. -/
theorem not_skipped_of_isNameRest {c : Char} (hc : isNameRest c) : isGap c = false ∧ c ≠ '#' ∧ c ≠ '\n' := by
  refine ⟨Bool.eq_false_iff.2 fun hgap => ?_, ?_, ?_⟩
  · simp only [isGap, Bool.or_eq_true, beq_iff_eq] at hgap
    rcases hgap with (rfl | rfl) | rfl <;> cases hc
  · rintro rfl
    cases hc
  · rintro rfl
    cases hc

theorem read_gap {c : Char} (hc : isGap c) (cs : List Char) :
    read c cs = (.skipped, runLength isGap cs) := by
  rw [read, if_pos hc]

/-- A symbol is a token of its own, whatever follows; only of two stars the first is not. -/
theorem read_symbol {c : Char} {t : Token} (hc : symbol? c = some t) {rest : List Char}
    (hrest : c = '*' → rest.head? ≠ some '*') : read c rest = (.token t, 0) := by
  have hstar : ¬ (c = '*' ∧ rest.head? = some '*') := fun h => hrest h.1 h.2
  unfold symbol? at hc
  split at hc <;> cases hc
  case h_3 => exact if_neg hstar
  all_goals rfl

theorem read_name {c : Char} {cs : List Char} {n : String} (h : (read c cs).1 = .token (.name n)) :
    n.toList.all isNameRest := by
  unfold read at h
  -- of all branches of the reading, only the one that a letter begins gives a name
  split at h
  · cases h
  · split at h
    · cases h
    · split at h
      · cases h
      · split at h
        · rename_i hstart
          obtain rfl := Token.name.inj (Piece.token.inj h)
          rw [String.toList_ofList, List.all_cons, isNameRest_of_isNameStart hstart, List.all_takeWhile]
          rfl
        · split at h
          · cases h
          · split at h
            · cases h
            · split at h
              · rename_i t hsymbol
                obtain rfl := Piece.token.inj h
                unfold symbol? at hsymbol
                split at hsymbol <;> cases hsymbol
              · cases h

end Lexeme

namespace Token

/-- The rest of a piece is passed over. -/
theorem pieces_drop : ∀ (n position : Nat) (cs : List Char),
    pieces n position cs = pieces 0 (position + byteLength (cs.take n)) (cs.drop n)
  | 0, _, _ => rfl
  | n + 1, _, [] => rfl
  | n + 1, position, c :: cs => by
    rw [pieces, pieces_drop n, List.take_succ_cons, List.drop_succ_cons, byteLength, Nat.add_assoc]

theorem pieces_name {n : String} : ∀ {cs : List Char} {left position : Nat} {p : Placed Piece},
    p ∈ pieces left position cs → p.value = .token (.name n) → n.toList.all Lexeme.isNameRest
  | [], left, _, _, hp, _ => by
    cases left <;> cases hp
  | c :: cs, left + 1, position, _, hp, hn => by
    have hrest : _ ∈ pieces left (position + c.utf8Size) cs := hp
    exact pieces_name hrest hn
  | c :: cs, 0, _, _, hp, hn => by
    rcases List.mem_cons.1 hp with rfl | hp
    · exact Lexeme.read_name hn
    · exact pieces_name hp hn

theorem scan_name {source n : String} {place : Span} (h : ⟨.name n, place⟩ ∈ (scan source).tokens) :
    n.toList.all Lexeme.isNameRest := by
  obtain ⟨p, hp, htoken⟩ := List.mem_filterMap.1 h
  unfold ofPiece? at htoken
  split at htoken
  · rename_i t hvalue
    obtain rfl := congrArg Placed.value (Option.some.inj htoken)
    exact pieces_name hp hvalue
  · cases htoken

end Token
end FixedStep
