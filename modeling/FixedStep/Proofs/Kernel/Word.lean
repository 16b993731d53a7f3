import FixedStep.Kernel
import FixedStep.Proofs.Token
/-!
# Word — the words of a generated statement

A statement is cut into names, numbers and symbols, each as long as it can be.  Names and numbers end where no further
character belongs to them; two operator characters side by side would make another operator, and a number without a
point or an exponent is an integer: neither is a word of a statement.
-/
namespace FixedStep
namespace Kernel

inductive Word where
  | name (text : String)
  | number (text : String)
  | symbol (c : Char)
deriving DecidableEq, Repr

namespace Word

/-- The characters that are symbols whatever follows. -/
def isMark (c : Char) : Bool := ['(', ')', '[', ']', ',', ';'].contains c

/-- The characters that operators begin with. -/
def isOperator (c : Char) : Bool := ['+', '-', '*', '/', '='].contains c

/-- A decimal from end to end, with a point or an exponent. -/
def isDouble (cs : List Char) : Bool :=
  Decimal.run cs == cs.length && (cs.contains '.' || cs.contains 'e' || cs.contains 'E')

/-- What was begun of a word, last character first. -/
inductive Pending where
  | nothing
  | name (before : List Char)
  | number (before : List Char)
  | mark (c : Char)
  | operator (c : Char)
deriving DecidableEq, Repr

namespace Pending

/-- Whether a character belongs to what was begun.  A sign belongs to a number after the letter of an exponent. -/
def takes : Pending → Char → Bool
  | name _, c => Lexeme.isNameRest c
  | number before, c =>
    Lexeme.isNameRest c || c == '.' || ((c == '+' || c == '-') && before.head?.any fun e => e == 'e' || e == 'E')
  | operator _, c => isOperator c
  | _, _ => false

/-- What was begun, with a character more; no operator has two. -/
def extend? : Pending → Char → Option Pending
  | name before, c => some (name (c :: before))
  | number before, c => some (number (c :: before))
  | _, _ => none

/-- The word that was begun, at its end. -/
def words? : Pending → Option (List Word)
  | nothing => some []
  | name before => some [.name (String.ofList before.reverse)]
  | number before => if isDouble before.reverse then some [.number (String.ofList before.reverse)] else none
  | mark c => some [.symbol c]
  | operator c => some [.symbol c]

/-- What a character begins. -/
def begin? (c : Char) : Option Pending :=
  if c = ' ' then some nothing
  else if Lexeme.isNameStart c then some (name [c])
  else if c.isDigit then some (number [c])
  else if isMark c then some (mark c)
  else if isOperator c then some (operator c)
  else none

end Pending

/-- The words of a text after what was begun. -/
def cut : Pending → List Char → Option (List Word)
  | p, [] => p.words?
  | p, c :: cs =>
    if p.takes c then (p.extend? c).bind (cut · cs)
    else p.words?.bind fun ws => (Pending.begin? c).bind fun q => (cut q cs).map (ws ++ ·)

/-- **The words of a text**, if it consists of words. -/
def ofText (text : String) : Option (List Word) := cut .nothing text.toList

/-! ## Words one after the other -/

theorem cut_nothing (c : Char) (cs : List Char) :
    cut .nothing (c :: cs) = (Pending.begin? c).bind fun q => cut q cs := by
  simp [cut, Pending.takes, Pending.words?]

/-- A word ends before a character that does not belong to it. -/
theorem cut_end {p : Pending} {cs : List Char} (h : ∀ c ∈ cs.head?, p.takes c = false) :
    cut p cs = p.words?.bind fun ws => (cut .nothing cs).map (ws ++ ·) := by
  cases cs with
  | nil =>
    change p.words? = p.words?.bind fun ws => some (ws ++ [])
    cases p.words? <;> simp
  | cons c cs =>
    rw [cut, if_neg (by simp [h c rfl]), cut_nothing]
    cases p.words? <;> cases Pending.begin? c <;> simp

theorem cut_blank (cs : List Char) : cut .nothing (' ' :: cs) = cut .nothing cs := by
  rw [cut_nothing]
  rfl

theorem cut_mark {c : Char} (hc : isMark c) (cs : List Char) :
    cut .nothing (c :: cs) = (cut .nothing cs).map (.symbol c :: ·) := by
  have hbegin : Pending.begin? c = some (.mark c) := by
    simp only [isMark, List.contains_cons, List.contains_nil, Bool.or_eq_true, beq_iff_eq, Bool.or_false] at hc
    rcases hc with rfl | rfl | rfl | rfl | rfl | rfl <;> rfl
  rw [cut_nothing, hbegin, Option.bind_some, cut_end (fun _ _ => rfl)]
  rfl

theorem cut_operator {c : Char} (hc : isOperator c) {cs : List Char} (h : ∀ d ∈ cs.head?, isOperator d = false) :
    cut .nothing (c :: cs) = (cut .nothing cs).map (.symbol c :: ·) := by
  have hbegin : Pending.begin? c = some (.operator c) := by
    simp only [isOperator, List.contains_cons, List.contains_nil, Bool.or_eq_true, beq_iff_eq, Bool.or_false] at hc
    rcases hc with rfl | rfl | rfl | rfl | rfl <;> rfl
  rw [cut_nothing, hbegin, Option.bind_some, cut_end h]
  rfl

/-- A text of one name. -/
def isName (cs : List Char) : Bool :=
  match cs with
  | [] => false
  | c :: cs => Lexeme.isNameStart c && cs.all Lexeme.isNameRest

theorem cut_nameFrom : ∀ (w before : List Char) (cs : List Char), w.all Lexeme.isNameRest →
    (∀ c ∈ cs.head?, Lexeme.isNameRest c = false) → cut (.name before) (w ++ cs) =
      (cut .nothing cs).map (.name (String.ofList (before.reverse ++ w)) :: ·)
  | [], before, cs, _, h => by
    rw [List.nil_append, cut_end h, List.append_nil]
    rfl
  | c :: w, before, cs, hw, h => by
    obtain ⟨hc, hw⟩ := (Bool.and_eq_true _ _).mp hw
    rw [List.cons_append, cut, if_pos (by exact hc), Pending.extend?, Option.bind_some, cut_nameFrom w _ cs hw h,
      List.reverse_cons, List.append_assoc, List.singleton_append]

theorem cut_name {w cs : List Char} (hw : isName w) (h : ∀ c ∈ cs.head?, Lexeme.isNameRest c = false) :
    cut .nothing (w ++ cs) = (cut .nothing cs).map (.name (String.ofList w) :: ·) := by
  cases w with
  | nil => cases hw
  | cons c w =>
    obtain ⟨hc, hw⟩ := (Bool.and_eq_true _ _).mp hw
    have hblank : c ≠ ' ' := by
      rintro rfl
      cases hc
    have hbegin : Pending.begin? c = some (.name [c]) := by rw [Pending.begin?, if_neg hblank, if_pos hc]
    rw [List.cons_append, cut_nothing, hbegin, Option.bind_some, cut_nameFrom w [c] cs hw h]
    rfl

/-- A text that goes on with a number after a character. -/
def goesOn : Char → List Char → Bool
  | _, [] => true
  | last, c :: cs =>
    (Lexeme.isNameRest c || c == '.' || ((c == '+' || c == '-') && (last == 'e' || last == 'E'))) && goesOn c cs

/-- A text of one number, with a point or an exponent. -/
def isNumber (cs : List Char) : Bool :=
  match cs with
  | [] => false
  | c :: rest => c.isDigit && goesOn c rest && isDouble cs

theorem cut_numberFrom : ∀ (w : List Char) (last : Char) (before cs : List Char), goesOn last w →
    isDouble ((last :: before).reverse ++ w) →
    (∀ c ∈ cs.head?, Lexeme.isNameRest c = false ∧ c ≠ '.' ∧ c ≠ '+' ∧ c ≠ '-') →
      cut (.number (last :: before)) (w ++ cs) =
        (cut .nothing cs).map (.number (String.ofList ((last :: before).reverse ++ w)) :: ·)
  | [], last, before, cs, _, hdouble, h => by
    rw [List.append_nil] at hdouble ⊢
    have hend : ∀ c ∈ cs.head?, (Pending.number (last :: before)).takes c = false := by
      intro c hc
      obtain ⟨hrest, hpoint, hplus, hminus⟩ := h c hc
      simp [Pending.takes, hrest, hpoint, hplus, hminus]
    rw [List.nil_append, cut_end hend, Pending.words?, if_pos hdouble]
    rfl
  | c :: w, last, before, cs, hw, hdouble, h => by
    obtain ⟨hc, hw⟩ := (Bool.and_eq_true _ _).mp hw
    have htext : (last :: before).reverse ++ c :: w = (c :: last :: before).reverse ++ w := by simp
    rw [List.cons_append, cut, if_pos (by exact hc), Pending.extend?, Option.bind_some, htext]
    exact cut_numberFrom w c (last :: before) cs hw (htext ▸ hdouble) h

theorem cut_number {w cs : List Char} (hw : isNumber w)
    (h : ∀ c ∈ cs.head?, Lexeme.isNameRest c = false ∧ c ≠ '.' ∧ c ≠ '+' ∧ c ≠ '-') :
    cut .nothing (w ++ cs) = (cut .nothing cs).map (.number (String.ofList w) :: ·) := by
  cases w with
  | nil => cases hw
  | cons c w =>
    simp only [isNumber, Bool.and_eq_true] at hw
    obtain ⟨⟨hdigit, hgoes⟩, hdouble⟩ := hw
    have hbegin : Pending.begin? c = some (.number [c]) := by
      have hblank : c ≠ ' ' := by
        rintro rfl
        cases hdigit
      have hstart : Lexeme.isNameStart c = false := Lexeme.not_isNameStart_of_isDigit hdigit
      rw [Pending.begin?, if_neg hblank, hstart, if_neg Bool.false_ne_true, if_pos hdigit]
    rw [List.cons_append, cut_nothing, hbegin, Option.bind_some, cut_numberFrom w c [] cs hgoes hdouble h]
    rfl

/-- A text cut into words has no line break. -/
theorem not_mem_newline_of_cut : ∀ {cs : List Char} {p : Pending} {ws : List Word}, cut p cs = some ws → '\n' ∉ cs
  | [], _, _, _ => List.not_mem_nil
  | c :: cs, p, ws, h => by
    rw [List.mem_cons, not_or]
    rw [cut] at h
    split at h
    · rename_i htakes
      obtain ⟨q, hq, hcut⟩ := Option.bind_eq_some_iff.1 h
      refine ⟨?_, not_mem_newline_of_cut hcut⟩
      rintro rfl
      cases p <;> simp [Pending.takes, Lexeme.isNameRest, isOperator] at htakes
    · obtain ⟨before, -, h⟩ := Option.bind_eq_some_iff.1 h
      obtain ⟨q, hq, h⟩ := Option.bind_eq_some_iff.1 h
      obtain ⟨rest, hcut, -⟩ := Option.map_eq_some_iff.1 h
      refine ⟨?_, not_mem_newline_of_cut hcut⟩
      rintro rfl
      cases hq

end Word
end Kernel
end FixedStep
