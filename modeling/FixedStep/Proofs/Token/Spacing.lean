import FixedStep.Proofs.Token.Excerpt
/-!
# Spacing — the words of a text, one blank apart

A text is written again as the words of its tokens with a blank between any two (`Token.respaced`).  No word holds a
blank, so none of them goes on into the next one, and what stood between them in the text is no loss: the new text has
the same tokens and no stray characters (`scan_respaced`).
-/
namespace FixedStep

/-- The text at a span. -/
def Span.slice (place : Span) (source : String) : String := String.Pos.Raw.extract source ⟨place.start⟩ ⟨place.stop⟩

theorem utf8Len_eq_byteLength (cs : List Char) : String.utf8Len cs = byteLength cs := by
  rw [← String.utf8ByteSize_ofList, utf8ByteSize_ofList]

theorem Span.Cuts.slice {place : Span} {source : String} {w rest : List Char} (h : place.Cuts source.toList w rest) :
    place.slice source = String.ofList w := by
  obtain ⟨before, hsource, rfl⟩ := h
  unfold Span.slice
  rw [← String.ofList_toList (s := source), hsource, ← List.append_assoc, ← utf8Len_eq_byteLength,
    ← utf8Len_eq_byteLength]
  exact String.extract_of_valid before w rest

namespace Lexeme

variable {c : Char} {v w rest x : List Char} {t : Token} {k : TokenClass}

/-! ## No word holds a blank -/

theorem gapless_digit (hc : c.isDigit) : isGap c = false := (not_skipped_of_isNameRest (isNameRest_of_isDigit hc)).1

theorem gapless_exponentTexts (hx : x ∈ exponentTexts) : ∀ c ∈ x, isGap c = false := by
  rcases mem_exponentTexts.1 hx with rfl | ⟨e, ds, he, hds, hx⟩
  · exact List.forall_mem_nil _
  · have hletter : isGap e = false := by rcases isExponentLetter_iff.1 he with rfl | rfl <;> rfl
    have hdigits : ∀ c ∈ ds, isGap c = false := fun c hc => gapless_digit (hds.digits c hc)
    rcases hx with rfl | ⟨s, hs, rfl⟩
    · exact List.forall_mem_cons.2 ⟨hletter, hdigits⟩
    · have hsign : isGap s = false := by rcases isSign_iff.1 hs with rfl | rfl <;> rfl
      exact List.forall_mem_cons.2 ⟨hletter, List.forall_mem_cons.2 ⟨hsign, hdigits⟩⟩

theorem gapless_numberTexts (hw : w ∈ numberTexts) : ∀ c ∈ w, isGap c = false := by
  obtain ⟨whole, x, hwhole, hx, ⟨-, rfl⟩ | ⟨fraction, hfraction, -, rfl⟩⟩ := mem_numberTexts.1 hw
  · exact List.forall_mem_append.2 ⟨fun c hc => gapless_digit (hwhole c hc), gapless_exponentTexts hx⟩
  · refine List.forall_mem_append.2 ⟨fun c hc => gapless_digit (hwhole c hc), List.forall_mem_cons.2 ⟨rfl, ?_⟩⟩
    exact List.forall_mem_append.2 ⟨fun c hc => gapless_digit (hfraction c hc), gapless_exponentTexts hx⟩

/-- **No token is written with a blank in it.** -/
theorem gapless_texts (hw : w ∈ k.texts) : ∀ c ∈ w, isGap c = false := by
  cases k with
  | sign t =>
    have hsigns : ∀ s ∈ TokenClass.signs, s.1.any isGap = false := by decide
    simpa using hsigns (w, t) (TokenClass.mem_sign.1 hw)
  | number => exact gapless_numberTexts hw
  | name =>
    obtain ⟨c, cs, hc, hcs, rfl⟩ := mem_nameTexts.1 hw
    have hrest : ∀ d ∈ c :: cs, isNameRest d = true := List.forall_mem_cons.2 ⟨isNameRest_of_isNameStart hc, hcs⟩
    exact fun d hd => (not_skipped_of_isNameRest (hrest d hd)).1
  | newline =>
    obtain ⟨-, hlines⟩ := mem_repeated_oneOf.1 hw
    intro c hc
    obtain rfl := beq_iff_eq.1 (hlines c hc)
    rfl

/-! ## Words and blanks side by side -/

theorem skipped_of_prefix (hw : w ≠ []) (hv : w <+: v) (h : v ∈ skippedTexts) : w ∈ skippedTexts := by
  obtain ⟨rest, rfl⟩ := hv
  rcases mem_skippedTexts.1 h with ⟨-, hgaps⟩ | ⟨body, hbody, hcomment⟩
  · exact mem_skippedTexts.2 (.inl ⟨hw, fun d hd => hgaps d (List.mem_append_left _ hd)⟩)
  · obtain ⟨c, cs, rfl⟩ := List.exists_cons_of_ne_nil hw
    obtain ⟨rfl, rfl⟩ := List.cons.inj hcomment
    exact mem_skippedTexts.2 (.inr ⟨cs, fun d hd => hbody d (List.mem_append_left _ hd), rfl⟩)

theorem ne_nil_of_mem_texts (hw : w ∈ k.texts) : w ≠ [] := by
  rintro rfl
  cases TokenClass.of?_of_mem hw

theorem Fits.ne_nil (h : Fits (.token t) w rest) : w ≠ [] := by
  obtain ⟨k, hk, -⟩ := h
  exact ne_nil_of_mem_texts hk

/-- What is longer than `w` in front of `w ++ c :: rest` goes on with `c`. -/
theorem exists_of_longer (hv : v <+: w ++ c :: rest) (hlonger : w.length < v.length) : ∃ tail, v = w ++ c :: tail := by
  obtain ⟨tail, rfl⟩ := List.prefix_of_prefix_length_le (List.prefix_append w _) hv hlonger.le
  cases tail with
  | nil => simp at hlonger
  | cons d tail =>
    obtain ⟨rfl, -⟩ := List.cons_prefix_cons.1 ((List.prefix_append_right_inj w).1 hv)
    exact ⟨tail, rfl⟩

/-- **A word fits before a blank**, whatever it stood before. -/
theorem Fits.beforeBlank (h : Fits (.token t) w rest) (more : List Char) : Fits (.token t) w (' ' :: more) := by
  obtain ⟨k, hk, honly, ht, -⟩ := h
  refine ⟨k, hk, honly, ht, fun v hv hmatches => ?_⟩
  by_contra hlonger
  obtain ⟨tail, rfl⟩ := exists_of_longer hv (Nat.lt_of_not_le hlonger)
  -- a longer match holds the blank: it is no word, and if it were passed over so would be the word in front of it
  rcases hmatches with hskipped | ⟨k', hk'⟩
  · have hword := skipped_of_prefix (ne_nil_of_mem_texts hk) (List.prefix_append _ _) hskipped
    exact not_mem_texts_of_skipped hword k hk
  · have hblank := gapless_texts hk' ' ' (List.mem_append_right _ List.mem_cons_self)
    cases hblank

/-- One blank fits before a word. -/
theorem Fits.afterBlank (h : Fits (.token t) w rest) (more : List Char) : Fits .skipped [' '] (w ++ more) := by
  obtain ⟨k, hw, -⟩ := h
  obtain ⟨c, cs, rfl⟩ := List.exists_cons_of_ne_nil (ne_nil_of_mem_texts hw)
  refine ⟨mem_skippedTexts.2 (.inl ⟨List.cons_ne_nil _ _, List.forall_mem_singleton.2 rfl⟩), fun v hv hmatches => ?_⟩
  by_contra hlonger
  obtain ⟨tail, rfl⟩ := exists_of_longer (c := c) hv (Nat.lt_of_not_le hlonger)
  rcases hmatches with hskipped | ⟨k', hk'⟩
  · rcases mem_skippedTexts.1 hskipped with ⟨-, hgaps⟩ | ⟨body, -, hcomment⟩
    · have hgap := hgaps c (List.mem_append_right _ List.mem_cons_self)
      rw [gapless_texts hw c List.mem_cons_self] at hgap
      cases hgap
    · exact absurd (List.cons.inj hcomment).1 (by decide)
  · have hgap := gapless_texts hk' ' ' List.mem_cons_self
    cases hgap

end Lexeme

namespace Token

open Lexeme (Fits)

/-- **A text written again**: the words of its tokens, one blank apart. -/
def respaced (source : String) : String := " ".intercalate ((scan source).tokens.map (·.span.slice source))

/-- Words one blank apart are cut into themselves and the blanks between them. -/
theorem cut_spaced {word : Placed Token → List Char} : ∀ (ts : List (Placed Token)) (position : Nat),
    (∀ t ∈ ts, Fits (.token t.value) (word t) []) → ∃ ps, Cut position ([' '].intercalate (ts.map word)) ps ∧
      (ps.filterMap ofPiece?).map (·.value) = ts.map (·.value) ∧ ps.filterMap strayOf? = []
  | [], position, _ => ⟨[], .nil position, rfl, rfl⟩
  | [t], position, h => by
    have hfits := h t List.mem_cons_self
    have hcut := Cut.cons hfits.ne_nil hfits (.nil (position + byteLength (word t)))
    rw [List.append_nil] at hcut
    rw [List.map_singleton, List.intercalate_singleton]
    exact ⟨_, hcut, rfl, rfl⟩
  | t :: u :: ts, position, h => by
    obtain ⟨ht, hrest⟩ := List.forall_mem_cons.1 h
    obtain ⟨ps, hcut, hwords, hstrays⟩ := cut_spaced (u :: ts) (position + byteLength (word t) + byteLength [' ']) hrest
    -- the blank ends where the next word begins
    have hnext : ∃ more, [' '].intercalate ((u :: ts).map word) = word u ++ more := by
      cases ts with
      | nil => exact ⟨[], by simp⟩
      | cons _ _ => exact ⟨_, by rw [List.map_cons, List.map_cons, List.intercalate_cons_cons, List.append_assoc]⟩
    obtain ⟨more, hmore⟩ := hnext
    have hblank : Fits .skipped [' '] ([' '].intercalate ((u :: ts).map word)) :=
      hmore ▸ (hrest u List.mem_cons_self).afterBlank more
    rw [List.map_cons, List.map_cons, List.intercalate_cons_cons, List.append_assoc, ← List.map_cons]
    exact ⟨_, .cons ht.ne_nil (ht.beforeBlank _) (.cons (List.cons_ne_nil _ _) hblank hcut),
      congrArg (t.value :: ·) hwords, hstrays⟩

theorem fits_slice {source : String} {t : Placed Token} (h : t ∈ (scan source).tokens) :
    Fits (.token t.value) (t.span.slice source).toList [] := by
  obtain ⟨w, rest, hcuts, -, hfits⟩ := cuts_of_mem (mem_tokens.1 h)
  have hbefore : Fits (.token t.value) w ([] ++ rest) := hfits
  rw [hcuts.slice, String.toList_ofList]
  exact hbefore.shorten

/-- **A text written again has the same tokens**, and no character in it is stray. -/
theorem scan_respaced (source : String) : (scan (respaced source)).strays = [] ∧
    (scan (respaced source)).tokens.map (·.value) = (scan source).tokens.map (·.value) := by
  obtain ⟨ps, hcut, hwords, hstrays⟩ := cut_spaced (scan source).tokens 0 fun _ => fits_slice
  have htext : (respaced source).toList =
      [' '].intercalate ((scan source).tokens.map fun t => (t.span.slice source).toList) := by
    rw [respaced, String.toList_intercalate, List.map_map]
    rfl
  rw [scan, htext, (cut_pieces 0 _).unique hcut]
  exact ⟨hstrays, hwords⟩

end Token
end FixedStep
