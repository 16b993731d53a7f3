import FixedStep.Proofs.Grammar.Reader
/-!
# Combinator — what parsers refuse, and where

A cursor either offers patterns at its place, all that was looked for there so far, or something was refused beyond it.
A refusal adds to the offer in the first case and is lost in the second (`Offers.refuse`, `refuse_of_beyond`), so what a
text is blamed for can be told from the offers alone.
-/
namespace FixedStep

namespace Cursor

/-- The next token. -/
def next (c : Cursor) : Option Token := c.rest.head?.map (·.value)

/-- Behind the next token. -/
def past (c : Cursor) (t : Placed Token) (ts : List (Placed Token)) : Cursor := ⟨ts, t.span.stop, c.furthest, c.expected⟩

/-- These patterns and no others were looked for at this place, and nothing was refused further on. -/
def Offers (c : Cursor) (ps : List Pattern) : Prop :=
  c.rest.length < c.furthest.length ∧ ps = [] ∨ c.furthest = c.rest ∧ c.expected = ps

/-- Something was refused further on. -/
def Beyond (c : Cursor) : Prop := c.furthest.length < c.rest.length

/-- At the same place, with these patterns refused there. -/
def offering (c : Cursor) (ps : List Pattern) : Cursor := ⟨c.rest, c.stop, c.rest, ps⟩

variable {c : Cursor} {ps : List Pattern}

theorem offers_offering (c : Cursor) (ps : List Pattern) : (c.offering ps).Offers ps := .inr ⟨rfl, rfl⟩

/-- **A refusal joins the offers of its place.** -/
theorem Offers.refuse (h : c.Offers ps) (p : Pattern) : c.refuse p = c.offering (addPattern ps p) := by
  unfold Cursor.refuse
  rcases h with ⟨hlt, rfl⟩ | ⟨hfurthest, hexpected⟩
  · rw [if_pos hlt]
    rfl
  · rw [if_neg (by rw [hfurthest]; exact Nat.lt_irrefl _), if_pos (by rw [hfurthest]), hfurthest, hexpected]
    rfl

/-- **A refusal before the furthest one is lost.** -/
theorem refuse_of_beyond (h : c.Beyond) (p : Pattern) : c.refuse p = c := by
  unfold Beyond at h
  unfold Cursor.refuse
  rw [if_neg (by omega), if_neg (by omega)]

theorem backTo_refuse (c : Cursor) (p : Pattern) : (c.refuse p).backTo c = c.refuse p := by
  unfold refuse
  split
  · rfl
  · split <;> rfl

theorem Offers.past (h : c.Offers ps) {t : Placed Token} {ts : List (Placed Token)} (hrest : c.rest = t :: ts) :
    (c.past t ts).Offers [] := by
  have hlength : ts.length < c.rest.length := by
    rw [hrest]
    exact Nat.lt_succ_self _
  rcases h with ⟨hlt, -⟩ | ⟨hfurthest, -⟩
  · exact .inl ⟨Nat.lt_trans hlength hlt, rfl⟩
  · exact .inl ⟨by rwa [Cursor.past, hfurthest], rfl⟩

theorem next_of_rest {t : Placed Token} {ts : List (Placed Token)} (hrest : c.rest = t :: ts) : c.next = some t.value := by
  rw [next, hrest]
  rfl

theorem head_of_rest {t : Placed Token} {ts : List (Placed Token)} (hrest : c.rest = t :: ts) :
    ∀ t' ∈ c.rest.head?, t' = t := by
  rw [hrest]
  rintro t' ht
  exact (Option.some.inj ht).symm

theorem nextStart_of_rest {t : Placed Token} {ts : List (Placed Token)} (hrest : c.rest = t :: ts) :
    c.nextStart = t.span.start := by
  rw [nextStart, hrest]

theorem next_of_head {t : Placed Token} (h : t ∈ c.rest.head?) : c.next = some t.value := by
  rw [next, Option.mem_def.1 h]
  rfl

theorem rest_of_next {token : Token} (h : c.next = some token) : ∃ t ts, c.rest = t :: ts ∧ t.value = token := by
  obtain ⟨t, ht, htoken⟩ := Option.map_eq_some_iff.1 h
  obtain ⟨ts, hrest⟩ := List.head?_eq_some_iff.1 ht
  exact ⟨t, ts, hrest, htoken⟩

theorem length_past {t : Placed Token} {ts : List (Placed Token)} (hrest : c.rest = t :: ts) :
    (c.past t ts).rest.length < c.rest.length := by
  rw [hrest]
  exact Nat.lt_succ_self _

theorem head_cases {α : Type} (f : Placed Token → Option α) (c : Cursor) :
    (∀ t ∈ c.rest.head?, f t = none) ∨ ∃ t ts a, c.rest = t :: ts ∧ f t = some a := by
  cases hrest : c.rest with
  | nil => exact .inl nofun
  | cons t ts =>
    cases hf : f t with
    | none =>
      refine .inl fun t' ht' => ?_
      obtain rfl := Option.some.inj ht'
      exact hf
    | some a => exact .inr ⟨t, ts, a, rfl, hf⟩

end Cursor

namespace Parser

open Cursor

variable {α β : Type} {c : Cursor}

/-! ## One token -/

theorem select_some {p : Pattern} {f : Placed Token → Option α} {t : Placed Token} {ts : List (Placed Token)} {a : α}
    (hrest : c.rest = t :: ts) (hf : f t = some a) : select p f c = (some a, c.past t ts) := by
  simp only [select, hrest, hf]
  rfl

theorem select_none {p : Pattern} {f : Placed Token → Option α} (h : ∀ t ∈ c.rest.head?, f t = none) :
    select p f c = (none, c.refuse p) := by
  unfold select
  cases hrest : c.rest with
  | nil => rfl
  | cons t ts =>
    have hf : f t = none := h t (by rw [hrest]; rfl)
    simp only [hf]

theorem just_some {t : Placed Token} {ts : List (Placed Token)} (hrest : c.rest = t :: ts) :
    just t.value c = (some t.value, c.past t ts) := select_some hrest (if_pos rfl)

theorem just_none {token : Token} (h : c.next ≠ some token) : just token c = (none, c.refuse (.token token)) := by
  refine select_none fun t ht => if_neg fun heq => h ?_
  rw [next_of_head ht, heq]

/-- A place that offers patterns offers one more where that is refused. -/
theorem select_offering {p : Pattern} {f : Placed Token → Option α} (h : ∀ t ∈ c.rest.head?, f t = none)
    (ps : List Pattern) : select p f (c.offering ps) = (none, c.offering (addPattern ps p)) := by
  have hnone : select p f (c.offering ps) = (none, (c.offering ps).refuse p) := select_none h
  rw [hnone, (offers_offering c ps).refuse]
  rfl

theorem just_offering {token : Token} (h : c.next ≠ some token) (ps : List Pattern) :
    just token (c.offering ps) = (none, c.offering (addPattern ps (.token token))) := by
  have hnone : just token (c.offering ps) = (none, (c.offering ps).refuse (.token token)) := just_none h
  rw [hnone, (offers_offering c ps).refuse]
  rfl

theorem endOfInput_some (h : c.rest = []) : endOfInput c = (some (), c) := by
  simp only [endOfInput, h]

theorem endOfInput_none (h : c.rest ≠ []) : endOfInput c = (none, c.refuse .endOfInput) := by
  unfold endOfInput
  split
  · exact absurd (by assumption) h
  · rfl

/-! ## Parsers in a row -/

section

variable {p : Parser α} {q : Parser β} {a : α} {b : β} {c₁ c₂ c₃ : Cursor}

theorem andThen_some (hp : p c = (some a, c₁)) (hq : q c₁ = (some b, c₂)) : p.andThen q c = (some (a, b), c₂) := by
  simp only [andThen, hp, hq]

theorem andThen_failed (hp : p c = (some a, c₁)) (hq : q c₁ = (none, c₂)) : p.andThen q c = (none, c₂) := by
  simp only [andThen, hp, hq]

theorem andThen_none (hp : p c = (none, c₁)) : p.andThen q c = (none, c₁) := by
  simp only [andThen, hp]

theorem map_some {f : α → β} (hp : p c = (some a, c₁)) : p.map f c = (some (f a), c₁) := by
  simp only [map, hp, Option.map_some]

theorem map_none {f : α → β} (hp : p c = (none, c₁)) : p.map f c = (none, c₁) := by
  simp only [map, hp, Option.map_none]

theorem mapWith_some {f : α → Span → β} (hp : p c = (some a, c₁)) :
    p.mapWith f c = (some (f a ⟨c.nextStart, c₁.stop⟩), c₁) := by
  simp only [mapWith, hp, Option.map_some]

theorem mapWith_none {f : α → Span → β} (hp : p c = (none, c₁)) : p.mapWith f c = (none, c₁) := by
  simp only [mapWith, hp, Option.map_none]

theorem ignoreThen_some (hp : p c = (some a, c₁)) (hq : q c₁ = (some b, c₂)) : p.ignoreThen q c = (some b, c₂) :=
  map_some (andThen_some hp hq)

theorem ignoreThen_failed (hp : p c = (some a, c₁)) (hq : q c₁ = (none, c₂)) : p.ignoreThen q c = (none, c₂) :=
  map_none (andThen_failed hp hq)

theorem ignoreThen_none (hp : p c = (none, c₁)) : p.ignoreThen q c = (none, c₁) := map_none (andThen_none hp)

theorem thenIgnore_some (hp : p c = (some a, c₁)) (hq : q c₁ = (some b, c₂)) : p.thenIgnore q c = (some a, c₂) :=
  map_some (andThen_some hp hq)

theorem thenIgnore_failed (hp : p c = (some a, c₁)) (hq : q c₁ = (none, c₂)) : p.thenIgnore q c = (none, c₂) :=
  map_none (andThen_failed hp hq)

theorem thenIgnore_none (hp : p c = (none, c₁)) : p.thenIgnore q c = (none, c₁) := map_none (andThen_none hp)

end

section

variable {p : Parser α} {opening closing : Parser Token} {x y : Token} {a : α} {c₁ c₂ c₃ : Cursor}

theorem delimitedBy_read (hopening : opening c = (some x, c₁)) (hp : p c₁ = (some a, c₂))
    (hclosing : closing c₂ = (some y, c₃)) : p.delimitedBy opening closing c = (some a, c₃) :=
  thenIgnore_some (ignoreThen_some hopening hp) hclosing

theorem delimitedBy_unclosed (hopening : opening c = (some x, c₁)) (hp : p c₁ = (some a, c₂))
    (hclosing : closing c₂ = (none, c₃)) : p.delimitedBy opening closing c = (none, c₃) :=
  thenIgnore_failed (ignoreThen_some hopening hp) hclosing

theorem delimitedBy_failed (hopening : opening c = (some x, c₁)) (hp : p c₁ = (none, c₂)) :
    p.delimitedBy opening closing c = (none, c₂) :=
  thenIgnore_none (ignoreThen_failed hopening hp)

theorem delimitedBy_unopened (hopening : opening c = (none, c₁)) : p.delimitedBy opening closing c = (none, c₁) :=
  thenIgnore_none (ignoreThen_none hopening)

end

/-! ## Folds -/

section

variable {p : Parser β} {more : Parser (List α)} {b : β} {as : List α} {c₁ c₂ : Cursor}

theorem foldl_some {f : β → α → β} (hp : p c = (some b, c₁)) (hmore : more c₁ = (some as, c₂)) :
    foldl p more f c = (some (as.foldl f b), c₂) :=
  map_some (andThen_some hp hmore)

theorem foldl_none {f : β → α → β} (hp : p c = (none, c₁)) : foldl p more f c = (none, c₁) :=
  map_none (andThen_none hp)

theorem foldr_some {f : α → β → β} (hmore : more c = (some as, c₁)) (hp : p c₁ = (some b, c₂)) :
    foldr more p f c = (some (as.foldr f b), c₂) :=
  map_some (andThen_some hmore hp)

theorem foldr_none {f : α → β → β} (hmore : more c = (some as, c₁)) (hp : p c₁ = (none, c₂)) :
    foldr more p f c = (none, c₂) :=
  map_none (andThen_failed hmore hp)

end

/-! ## Choices -/

section

variable {p q : Parser α} {a : α} {after failed : Cursor}

theorem or_some (h : p c = (some a, after)) : p.or q c = (some a, after) := by
  simp only [or, h]

theorem or_none (h : p c = (none, failed)) : p.or q c = q (failed.backTo c) := by
  simp only [or, h]

theorem orNot_some (h : p c = (some a, after)) : p.orNot c = (some (some a), after) := by
  simp only [orNot, h]

theorem orNot_none (h : p c = (none, failed)) : p.orNot c = (some none, failed.backTo c) := by
  simp only [orNot, h]

end

/-! ## Repetitions -/

section

variable {p : Parser α} {a : α} {as : List α} {after failed : Cursor}

theorem repeatUpTo_none (h : p c = (none, failed)) (n : Nat) : repeatUpTo p (n + 1) c = ([], failed.backTo c) := by
  rw [repeatUpTo, h]

theorem repeatUpTo_some (h : p c = (some a, after)) (n : Nat) :
    repeatUpTo p (n + 1) c = (a :: (repeatUpTo p n after).1, (repeatUpTo p n after).2) := by
  rw [repeatUpTo, h]

/-- What fails without a trace is not repeated. -/
theorem repeatUpTo_of_same (h : p c = (none, c)) : ∀ n, repeatUpTo p n c = ([], c)
  | 0 => rfl
  | n + 1 => repeatUpTo_none h n

theorem repeated_zero (h : repeatUpTo p (c.rest.length + 1) c = (as, after)) : p.repeated 0 c = (some as, after) := by
  simp only [repeated, h, Nat.not_lt_zero, if_false]

theorem repeated_one (h : repeatUpTo p (c.rest.length + 1) c = (a :: as, after)) :
    p.repeated 1 c = (some (a :: as), after) := by
  simp [repeated, h]

theorem repeated_one_none (h : repeatUpTo p (c.rest.length + 1) c = ([], after)) : p.repeated 1 c = (none, after) := by
  simp [repeated, h]

end

section

variable {item : Parser α} {separator : Parser β} {trailing : Bool}

theorem separatedUpTo_none {failed : Cursor} (h : separator c = (none, failed)) (n : Nat) :
    separatedUpTo item separator trailing (n + 1) c = ([], failed.backTo c) := by
  rw [separatedUpTo, h]

theorem separatedUpTo_of_same (h : separator c = (none, c)) : ∀ n, separatedUpTo item separator trailing n c = ([], c)
  | 0 => rfl
  | n + 1 => separatedUpTo_none h n

theorem separatedUpTo_failed {b : β} {between failed : Cursor} (h : separator c = (some b, between))
    (hitem : item between = (none, failed)) (n : Nat) : separatedUpTo item separator trailing (n + 1) c =
      ([], failed.backTo (if trailing then between else c)) := by
  simp only [separatedUpTo, h, hitem]

theorem separatedUpTo_some {a : α} {b : β} {between after : Cursor} (h : separator c = (some b, between))
    (hitem : item between = (some a, after)) (n : Nat) : separatedUpTo item separator trailing (n + 1) c =
      (a :: (separatedUpTo item separator trailing n after).1, (separatedUpTo item separator trailing n after).2) := by
  simp only [separatedUpTo, h, hitem]

theorem separatedBy_none {failed : Cursor} (h : item c = (none, failed)) :
    item.separatedBy separator trailing c = (some [], failed.backTo c) := by
  simp only [separatedBy, h]

theorem separatedBy_some {a : α} {after : Cursor} (h : item c = (some a, after)) :
    item.separatedBy separator trailing c =
      (some (a :: (separatedUpTo item separator trailing (after.rest.length + 1) after).1),
        (separatedUpTo item separator trailing (after.rest.length + 1) after).2) := by
  simp only [separatedBy, h]

end

end Parser
end FixedStep
