import FixedStep.Proofs.Kernel.Literal
import Mathlib.Computability.Language
/-!
# Class — the classes of tokens, as regular languages

What a token may look like is told by its class, and what is passed over has a language of its own; each is written down
as the expression that defines it.  No text is of two classes (`TokenClass.eq_of_mem`).
-/
namespace FixedStep
namespace Lexeme

open scoped Computability

/-! ## Expressions -/

/-- The texts of one character that passes the test. -/
def oneOf (p : Char → Bool) : Language Char := {w | ∃ c, p c ∧ w = [c]}

/-- One text of a language or more, one after the other. -/
def repeated (l : Language Char) : Language Char := l * l∗

/-- A text of a language, or none. -/
def optional (l : Language Char) : Language Char := 1 + l

variable {p : Char → Bool} {w : List Char}

theorem mem_kstar_oneOf : w ∈ (oneOf p)∗ ↔ ∀ c ∈ w, p c := by
  rw [Language.mem_kstar]
  constructor
  · rintro ⟨texts, rfl, htexts⟩ c hc
    obtain ⟨text, htext, hc⟩ := List.mem_flatten.1 hc
    obtain ⟨d, hd, rfl⟩ := htexts text htext
    rwa [List.mem_singleton.1 hc]
  · intro h
    refine ⟨w.map fun c => [c], (List.flatMap_singleton' w).symm, fun text htext => ?_⟩
    obtain ⟨c, hc, rfl⟩ := List.mem_map.1 htext
    exact ⟨c, h c hc, rfl⟩

theorem mem_repeated_oneOf : w ∈ repeated (oneOf p) ↔ w ≠ [] ∧ ∀ c ∈ w, p c := by
  rw [repeated, Language.mem_mul]
  constructor
  · rintro ⟨_, ⟨c, hc, rfl⟩, cs, hcs, rfl⟩
    exact ⟨List.cons_ne_nil _ _, List.forall_mem_cons.2 ⟨hc, mem_kstar_oneOf.1 hcs⟩⟩
  · rintro ⟨hne, h⟩
    obtain ⟨c, cs, rfl⟩ := List.exists_cons_of_ne_nil hne
    obtain ⟨hc, hcs⟩ := List.forall_mem_cons.1 h
    exact ⟨[c], ⟨c, hc, rfl⟩, cs, mem_kstar_oneOf.2 hcs, rfl⟩

/-! ## Numbers -/

def digit : Language Char := oneOf Char.isDigit

def isExponentLetter (c : Char) : Bool := c == 'e' || c == 'E'

def isSign (c : Char) : Bool := c == '+' || c == '-'

theorem isExponentLetter_iff {c : Char} : isExponentLetter c ↔ c = 'e' ∨ c = 'E' := by simp [isExponentLetter]

theorem isSign_iff {c : Char} : isSign c ↔ c = '+' ∨ c = '-' := by simp [isSign]

/-- `([eE][+-]?[0-9]+)?` -/
def exponentTexts : Language Char := optional (oneOf isExponentLetter * optional (oneOf isSign) * repeated digit)

/-- `[0-9]+(\.[0-9]*)?([eE][+-]?[0-9]+)?` and `\.[0-9]+([eE][+-]?[0-9]+)?` -/
def numberTexts : Language Char :=
  repeated digit * optional ({['.']} * digit∗) * exponentTexts + {['.']} * repeated digit * exponentTexts

theorem mem_repeated_digit : w ∈ repeated digit ↔ Binary.AreDigits w :=
  mem_repeated_oneOf.trans ⟨fun ⟨hne, h⟩ => ⟨hne, h⟩, fun h => ⟨h.nonempty, h.digits⟩⟩

/-- An exponent part is a letter, a sign or none, and one digit or more. -/
theorem mem_exponentTexts : w ∈ exponentTexts ↔ w = [] ∨ ∃ e ds, isExponentLetter e ∧ Binary.AreDigits ds ∧
    (w = e :: ds ∨ ∃ s, isSign s ∧ w = e :: s :: ds) := by
  simp only [exponentTexts, optional, Language.mem_add, Language.mem_one, Language.mem_mul]
  refine or_congr_right ?_
  constructor
  · rintro ⟨_, ⟨_, ⟨e, he, rfl⟩, s, rfl | ⟨s, hs, rfl⟩, rfl⟩, ds, hds, rfl⟩
    · exact ⟨e, ds, he, mem_repeated_digit.1 hds, .inl rfl⟩
    · exact ⟨e, ds, he, mem_repeated_digit.1 hds, .inr ⟨s, hs, rfl⟩⟩
  · rintro ⟨e, ds, he, hds, rfl | ⟨s, hs, rfl⟩⟩
    · exact ⟨[e], ⟨[e], ⟨e, he, rfl⟩, [], .inl rfl, rfl⟩, ds, mem_repeated_digit.2 hds, rfl⟩
    · exact ⟨[e, s], ⟨[e], ⟨e, he, rfl⟩, [s], .inr ⟨s, hs, rfl⟩, rfl⟩, ds, mem_repeated_digit.2 hds, rfl⟩

/-- A number is digits, with a point or without, of which one is before the point or behind it, and an exponent part. -/
theorem mem_numberTexts : w ∈ numberTexts ↔ ∃ whole x, (∀ c ∈ whole, c.isDigit) ∧ x ∈ exponentTexts ∧
    (whole ≠ [] ∧ w = whole ++ x ∨ ∃ fraction, (∀ c ∈ fraction, c.isDigit) ∧ ¬ (whole = [] ∧ fraction = []) ∧
      w = whole ++ '.' :: (fraction ++ x)) := by
  simp only [numberTexts, optional, Language.mem_add, Language.mem_one, Language.mem_mul, mem_repeated_digit]
  constructor
  · rintro (⟨_, ⟨whole, hwhole, _, rfl | ⟨_, rfl, fraction, hfraction, rfl⟩, rfl⟩, x, hx, rfl⟩ |
      ⟨_, ⟨_, rfl, fraction, hfraction, rfl⟩, x, hx, rfl⟩)
    · exact ⟨whole, x, hwhole.digits, hx, .inl ⟨hwhole.nonempty, by rw [List.append_nil]⟩⟩
    · exact ⟨whole, x, hwhole.digits, hx, .inr ⟨fraction, mem_kstar_oneOf.1 hfraction,
        fun h => hwhole.nonempty h.1, by simp⟩⟩
    · exact ⟨[], x, nofun, hx, .inr ⟨fraction, hfraction.digits, fun h => hfraction.nonempty h.2, rfl⟩⟩
  · rintro ⟨whole, x, hwhole, hx, ⟨hne, rfl⟩ | ⟨fraction, hfraction, hne, rfl⟩⟩
    · exact .inl ⟨whole, ⟨whole, ⟨hne, hwhole⟩, [], .inl rfl, List.append_nil _⟩, x, hx, rfl⟩
    · cases whole with
      | nil =>
        have hdigits : Binary.AreDigits fraction := ⟨fun h => hne ⟨rfl, h⟩, hfraction⟩
        exact .inr ⟨'.' :: fraction, ⟨['.'], rfl, fraction, hdigits, rfl⟩, x, hx, rfl⟩
      | cons c whole =>
        refine .inl ⟨c :: whole ++ '.' :: fraction, ⟨c :: whole, ⟨List.cons_ne_nil _ _, hwhole⟩, '.' :: fraction,
          .inr ⟨['.'], rfl, fraction, mem_kstar_oneOf.2 hfraction, rfl⟩, rfl⟩, x, hx, ?_⟩
        rw [List.append_assoc, List.cons_append (a := '.')]

/-! ## Names and lines -/

/-- `[a-zA-Z_][a-zA-Z0-9_]*` -/
def nameTexts : Language Char := oneOf isNameStart * (oneOf isNameRest)∗

/-- `\n+` -/
def newlineTexts : Language Char := repeated (oneOf (· == '\n'))

/-- `[ \t\r]+|#[^\n]*` -/
def skippedTexts : Language Char := repeated (oneOf isGap) + {['#']} * (oneOf (· != '\n'))∗

theorem mem_nameTexts : w ∈ nameTexts ↔ ∃ c cs, isNameStart c ∧ (∀ d ∈ cs, isNameRest d) ∧ w = c :: cs := by
  rw [nameTexts, Language.mem_mul]
  constructor
  · rintro ⟨_, ⟨c, hc, rfl⟩, cs, hcs, rfl⟩
    exact ⟨c, cs, hc, mem_kstar_oneOf.1 hcs, rfl⟩
  · rintro ⟨c, cs, hc, hcs, rfl⟩
    exact ⟨[c], ⟨c, hc, rfl⟩, cs, mem_kstar_oneOf.2 hcs, rfl⟩

theorem mem_skippedTexts : w ∈ skippedTexts ↔
    (w ≠ [] ∧ ∀ c ∈ w, isGap c) ∨ ∃ body, (∀ c ∈ body, (c != '\n') = true) ∧ w = '#' :: body := by
  rw [skippedTexts, Language.mem_add, mem_repeated_oneOf, Language.mem_mul]
  refine or_congr_right ?_
  constructor
  · rintro ⟨_, rfl, body, hbody, rfl⟩
    exact ⟨body, mem_kstar_oneOf.1 hbody, rfl⟩
  · rintro ⟨body, hbody, rfl⟩
    exact ⟨['#'], rfl, body, mem_kstar_oneOf.2 hbody, rfl⟩

end Lexeme

/-! ## Classes -/

/-- The classes of tokens. -/
inductive TokenClass where
  /-- The texts of a token that is spelled in one way. -/
  | sign (t : Token)
  | number
  | name
  | newline
deriving DecidableEq, Repr

namespace TokenClass

open Lexeme

/-- The tokens that are spelled in one way. -/
def signs : List (List Char × Token) :=
  [(['*', '*'], .power), (['+'], .plus), (['-'], .minus), (['*'], .star), (['/'], .slash), (['='], .equals),
    ([':'], .colon), (['('], .openParen), ([')'], .closeParen), ([','], .comma)]

def texts : TokenClass → Language Char
  | sign t => {w | (w, t) ∈ signs}
  | number => numberTexts
  | name => nameTexts
  | newline => newlineTexts

/-- The token of a text of the class; the text of a number has to be read as one. -/
def token? (w : List Char) : TokenClass → Option Token
  | sign t => some t
  | number => (readNumber (String.ofList w)).toOption.map .number
  | name => some (.name (String.ofList w))
  | newline => some .newline

theorem mem_sign {t : Token} {w : List Char} : w ∈ (sign t).texts ↔ (w, t) ∈ signs := Iff.rfl

/-- The class that the first character of a text leaves it. -/
def of? : List Char → Option TokenClass
  | [] => none
  | c :: cs =>
    if c = '\n' then some newline
    else if isNameStart c then some name
    else if c.isDigit ∨ c = '.' then some number
    else (signs.lookup (c :: cs)).map sign

variable {k k' : TokenClass} {w : List Char}

theorem first_of_numberTexts (h : w ∈ numberTexts) : ∃ c cs, w = c :: cs ∧ (c.isDigit ∨ c = '.') := by
  obtain ⟨whole, x, hwhole, -, ⟨hne, rfl⟩ | ⟨fraction, -, -, rfl⟩⟩ := mem_numberTexts.1 h
  · obtain ⟨c, cs, rfl⟩ := List.exists_cons_of_ne_nil hne
    exact ⟨c, cs ++ x, rfl, .inl (hwhole c List.mem_cons_self)⟩
  · cases whole with
    | nil => exact ⟨'.', fraction ++ x, rfl, .inr rfl⟩
    | cons c cs => exact ⟨c, cs ++ '.' :: (fraction ++ x), rfl, .inl (hwhole c List.mem_cons_self)⟩

theorem of?_of_mem (h : w ∈ k.texts) : of? w = some k := by
  cases k with
  | sign t =>
    have hsigns : ∀ s ∈ signs, of? s.1 = some (sign s.2) := by decide
    exact hsigns (w, t) (mem_sign.1 h)
  | number =>
    obtain ⟨c, cs, rfl, hc⟩ := first_of_numberTexts h
    have hline : c ≠ '\n' := by
      rintro rfl
      exact absurd hc (by decide)
    have hname : isNameStart c = false := by
      rcases hc with hc | rfl
      · exact not_isNameStart_of_isDigit hc
      · rfl
    rw [of?, if_neg hline, hname, if_neg Bool.false_ne_true, if_pos hc]
  | name =>
    obtain ⟨c, cs, hc, -, rfl⟩ := mem_nameTexts.1 h
    have hline : c ≠ '\n' := by
      rintro rfl
      cases hc
    rw [of?, if_neg hline, if_pos hc]
  | newline =>
    obtain ⟨hne, hlines⟩ := mem_repeated_oneOf.1 h
    obtain ⟨c, cs, rfl⟩ := List.exists_cons_of_ne_nil hne
    exact if_pos (beq_iff_eq.1 (hlines c List.mem_cons_self))

/-- **No text is of two classes.** -/
theorem eq_of_mem (h : w ∈ k.texts) (h' : w ∈ k'.texts) : k = k' :=
  Option.some.inj ((of?_of_mem h).symm.trans (of?_of_mem h'))

end TokenClass
end FixedStep
