import FixedStep.Proofs.Token.Longest
/-!
# Coverage — a scan accounts for every character

The pieces of a text stand one behind the other from its first byte to its last (`cut_pieces`), and each fits its place.
So the spans of tokens and stray characters are apart and in order, and what they leave out is blank or a comment
(`accounts_scan`).
-/
namespace FixedStep

theorem byteLength_append : ∀ xs ys : List Char, byteLength (xs ++ ys) = byteLength xs + byteLength ys
  | [], _ => (Nat.zero_add _).symm
  | x :: xs, ys => by
    rw [List.cons_append, byteLength, byteLength, byteLength_append xs ys, Nat.add_assoc]

theorem utf8ByteSize_ofList : ∀ cs : List Char, (String.ofList cs).utf8ByteSize = byteLength cs
  | [] => rfl
  | c :: cs => by
    rw [byteLength, ← utf8ByteSize_ofList cs, ← List.singleton_append, String.ofList_append, String.utf8ByteSize_append,
      ← String.singleton_eq_ofList, String.utf8ByteSize_singleton]

theorem byteLength_pos {w : List Char} (h : w ≠ []) : 0 < byteLength w := by
  obtain ⟨c, cs, rfl⟩ := List.exists_cons_of_ne_nil h
  exact Nat.add_pos_left c.utf8Size_pos _

/-! ## Spans -/

namespace Span

/-- `w` is the text of a source at a span, and `rest` is what follows it. -/
def Cuts (place : Span) (source w rest : List Char) : Prop :=
  ∃ before, source = before ++ (w ++ rest) ∧ place = ⟨byteLength before, byteLength before + byteLength w⟩

def Holds (place : Span) (position : Nat) : Prop := place.start ≤ position ∧ position < place.stop

/-- Two spans have no byte in common. -/
def Apart (a b : Span) : Prop := a.stop ≤ b.start ∨ b.stop ≤ a.start

/-- A comment goes on to the end of its line. -/
def Comment (place : Span) (source : List Char) : Prop :=
  ∃ body rest, place.Cuts source ('#' :: body) rest ∧ '\n' ∉ body ∧ ∀ c ∈ rest.head?, c = '\n'

/-- A span of characters, in the text and not empty. -/
structure Within (place : Span) (source : String) : Prop where
  nonempty : place.start < place.stop
  inside : place.stop ≤ source.utf8ByteSize
  start : (⟨place.start⟩ : String.Pos.Raw).IsValid source
  stop : (⟨place.stop⟩ : String.Pos.Raw).IsValid source

theorem Cuts.within {place : Span} {source : String} {w rest : List Char} (h : place.Cuts source.toList w rest)
    (hw : w ≠ []) : place.Within source := by
  obtain ⟨before, hsource, rfl⟩ := h
  have htext : source = String.ofList before ++ String.ofList (w ++ rest) := by
    rw [← String.ofList_append, ← hsource, String.ofList_toList]
  have htext' : source = String.ofList (before ++ w) ++ String.ofList rest := by
    rw [← String.ofList_append, List.append_assoc, ← hsource, String.ofList_toList]
  have hpos := byteLength_pos hw
  refine ⟨by dsimp only; omega, ?_, ?_, ?_⟩
  · rw [← String.ofList_toList (s := source), utf8ByteSize_ofList, hsource, byteLength_append, byteLength_append]
    dsimp only
    omega
  · refine String.Pos.Raw.isValid_iff_exists_append.2 ⟨_, _, htext, ?_⟩
    rw [← utf8ByteSize_ofList]
    rfl
  · refine String.Pos.Raw.isValid_iff_exists_append.2 ⟨_, _, htext', ?_⟩
    dsimp only
    rw [← byteLength_append, ← utf8ByteSize_ofList]
    rfl

end Span

namespace Token

open Lexeme (Fits Longest Matches)

/-! ## Pieces one behind the other -/

/-- The pieces of a text that begins at a byte, each where the one before it ends. -/
inductive Cut : Nat → List Char → List (Placed Piece) → Prop where
  | nil (position : Nat) : Cut position [] []
  | cons {position : Nat} {piece : Piece} {w rest : List Char} {ps : List (Placed Piece)} (hw : w ≠ [])
      (hfits : Fits piece w rest) (hrest : Cut (position + byteLength w) rest ps) :
      Cut position (w ++ rest) (⟨piece, position, position + byteLength w⟩ :: ps)

theorem cut_pieces (position : Nat) : ∀ cs : List Char, Cut position cs (pieces 0 position cs)
  | [] => .nil position
  | c :: cs => by
    have hfits := Lexeme.fits_read c cs
    have hcut := cut_pieces (position + byteLength (c :: cs.take (Lexeme.read c cs).2)) (cs.drop (Lexeme.read c cs).2)
    have hcons := Cut.cons (List.cons_ne_nil _ _) hfits hcut
    rw [List.cons_append, List.take_append_drop, byteLength] at hcons
    rw [pieces]
    dsimp only
    rw [pieces_drop]
    simpa only [Nat.add_assoc, byteLength] using hcons
termination_by cs => cs.length
decreasing_by simp only [List.length_drop, List.length_cons]; omega

variable {position : Nat} {cs : List Char} {ps : List (Placed Piece)}

theorem Cut.position_le (h : Cut position cs ps) : ∀ p ∈ ps, position ≤ p.span.start := by
  induction h with
  | nil => exact fun _ hp => absurd hp List.not_mem_nil
  | cons hw hfits hrest ih =>
    intro p hp
    rcases List.mem_cons.1 hp with rfl | hp
    · exact Nat.le_refl _
    · exact (Nat.le_add_right _ _).trans (ih p hp)

/-- **No two pieces overlap**, and they stand in order. -/
theorem Cut.apart (h : Cut position cs ps) : ps.Pairwise fun p q => p.span.stop ≤ q.span.start := by
  induction h with
  | nil => exact .nil
  | cons hw hfits hrest ih => exact .cons hrest.position_le ih

/-- A piece fits the text at its place. -/
theorem Cut.place (h : Cut position cs ps) : ∀ p ∈ ps, ∃ before w rest, cs = before ++ (w ++ rest) ∧ w ≠ [] ∧
    p.span = ⟨position + byteLength before, position + byteLength before + byteLength w⟩ ∧ Fits p.value w rest := by
  induction h with
  | nil => exact fun _ hp => absurd hp List.not_mem_nil
  | @cons position piece w rest ps hw hfits hrest ih =>
    intro p hp
    rcases List.mem_cons.1 hp with rfl | hp
    · exact ⟨[], w, rest, rfl, hw, rfl, hfits⟩
    · obtain ⟨before, w', rest', rfl, hw', hspan, hfits'⟩ := ih p hp
      refine ⟨w ++ before, w', rest', (List.append_assoc _ _ _).symm, hw', ?_, hfits'⟩
      rw [hspan, byteLength_append w, Nat.add_assoc position]

theorem Cut.starts (h : Cut position cs ps) : ps.Pairwise fun p q => p.span.start ≤ q.span.start := by
  induction h with
  | nil => exact .nil
  | cons hw hfits hrest ih =>
    exact .cons (fun p hp => (Nat.le_add_right _ _).trans (hrest.position_le p hp)) ih

/-- **Every character is in a piece.** -/
theorem Cut.covers (h : Cut position cs ps) : ∀ {before after : List Char} {c : Char}, cs = before ++ c :: after →
    ∃ p ∈ ps, ∃ front w w' rest, before = front ++ w ∧ after = w' ++ rest ∧ Fits p.value (w ++ c :: w') rest ∧
      p.span = ⟨position + byteLength front, position + byteLength front + byteLength (w ++ c :: w')⟩ := by
  induction h with
  | nil =>
    intro before after c heq
    exact absurd heq.symm (by simp)
  | @cons position piece w rest ps hw hfits hrest ih =>
    intro before after c heq
    -- the character is behind the first piece, or in it
    have hbehind : ∀ {more : List Char}, before = w ++ more → rest = more ++ c :: after →
        ∃ p ∈ (⟨piece, position, position + byteLength w⟩ :: ps : List (Placed Piece)), ∃ front v v' tail,
          before = front ++ v ∧ after = v' ++ tail ∧ Fits p.value (v ++ c :: v') tail ∧
            p.span = ⟨position + byteLength front, position + byteLength front + byteLength (v ++ c :: v')⟩ := by
      rintro more rfl hmore
      obtain ⟨p, hp, front, v, v', tail, rfl, rfl, hfits', hspan⟩ := ih hmore
      refine ⟨p, List.mem_cons_of_mem _ hp, w ++ front, v, v', tail, (List.append_assoc _ _ _).symm, rfl, hfits', ?_⟩
      rw [hspan, byteLength_append w front, Nat.add_assoc position]
    rcases List.append_eq_append_iff.1 heq with ⟨more, hbefore, hmore⟩ | ⟨more, hw', hmore⟩
    · exact hbehind hbefore hmore
    · cases more with
      | nil =>
        rw [List.append_nil] at hw'
        have hmore : rest = [] ++ c :: after := hmore.symm
        exact hbehind (by rw [hw', List.append_nil]) hmore
      | cons d more =>
        obtain ⟨rfl, rfl⟩ := List.cons.inj hmore
        subst hw'
        exact ⟨_, List.mem_cons_self, [], before, more, rest, rfl, rfl, hfits, rfl⟩

/-! ## Spans of a scan -/

/-- The spans of tokens and of stray characters, in the order of their starts. -/
def Scan.spans (s : Scan) : List Span :=
  (s.tokens.map (·.span)).merge (s.strays.map (·.span)) fun a b => a.start ≤ b.start

def keptSpans (ps : List (Placed Piece)) : List Span := (ps.filter fun p => p.value ≠ .skipped).map (·.span)

theorem perm_keptSpans : ∀ ps : List (Placed Piece),
    ((ps.filterMap ofPiece?).map (·.span) ++ (ps.filterMap strayOf?).map (·.span)).Perm (keptSpans ps)
  | [] => .nil
  | ⟨.skipped, _⟩ :: ps => perm_keptSpans ps
  | ⟨.token _, _⟩ :: ps => (perm_keptSpans ps).cons _
  | ⟨.stray _, _⟩ :: ps => List.perm_middle.trans ((perm_keptSpans ps).cons _)

theorem spans_perm (source : String) : (scan source).spans.Perm (keptSpans (pieces 0 0 source.toList)) :=
  (List.merge_perm_append _).trans (perm_keptSpans _)

theorem mem_spans {source : String} {place : Span} : place ∈ (scan source).spans ↔
    ∃ p ∈ pieces 0 0 source.toList, p.value ≠ .skipped ∧ p.span = place := by
  rw [(spans_perm source).mem_iff, keptSpans, List.mem_map]
  simp only [List.mem_filter, decide_eq_true_eq, and_assoc]

theorem span_of_token {p : Placed Piece} {t : Placed Token} (h : ofPiece? p = some t) : p.span = t.span := by
  obtain ⟨piece, place⟩ := p
  cases piece <;> cases h
  rfl

theorem span_of_stray {p : Placed Piece} {c : Placed Char} (h : strayOf? p = some c) : p.span = c.span := by
  obtain ⟨piece, place⟩ := p
  cases piece <;> cases h
  rfl

theorem mem_tokens {source : String} {p : Placed Token} :
    p ∈ (scan source).tokens ↔ ⟨.token p.value, p.span⟩ ∈ pieces 0 0 source.toList := by
  rw [scan, List.mem_filterMap]
  constructor
  · rintro ⟨⟨piece, place⟩, hmem, hpiece⟩
    cases piece <;> cases hpiece
    exact hmem
  · exact fun h => ⟨_, h, rfl⟩

theorem mem_strays {source : String} {p : Placed Char} :
    p ∈ (scan source).strays ↔ ⟨.stray p.value, p.span⟩ ∈ pieces 0 0 source.toList := by
  rw [scan, List.mem_filterMap]
  constructor
  · rintro ⟨⟨piece, place⟩, hmem, hpiece⟩
    cases piece <;> cases hpiece
    exact hmem
  · exact fun h => ⟨_, h, rfl⟩

theorem cuts_of_mem {source : String} {p : Placed Piece} (h : p ∈ pieces 0 0 source.toList) :
    ∃ w rest, p.span.Cuts source.toList w rest ∧ w ≠ [] ∧ Fits p.value w rest := by
  obtain ⟨before, w, rest, hsource, hw, hspan, hfits⟩ := (cut_pieces 0 source.toList).place p h
  rw [Nat.zero_add] at hspan
  exact ⟨w, rest, ⟨before, hsource, hspan⟩, hw, hfits⟩

theorem apart_of_mem {source : String} {p q : Placed Piece} (hp : p ∈ pieces 0 0 source.toList)
    (hq : q ∈ pieces 0 0 source.toList) (hne : p ≠ q) : p.span.Apart q.span := by
  have hapart : (pieces 0 0 source.toList).Pairwise fun p q => p.span.Apart q.span :=
    (cut_pieces 0 source.toList).apart.imp .inl
  have hsymm : Std.Symm fun p q : Placed Piece => p.span.Apart q.span := ⟨fun _ _ => Or.symm⟩
  exact hapart.forall hp hq hne

theorem spans_within {source : String} : ∀ place ∈ (scan source).spans, place.Within source := by
  intro place hplace
  obtain ⟨p, hp, -, rfl⟩ := mem_spans.1 hplace
  obtain ⟨w, rest, hcuts, hw, -⟩ := cuts_of_mem hp
  exact hcuts.within hw

/-- **The spans of a scan are apart and in order.** -/
theorem spans_apart (source : String) : (scan source).spans.Pairwise fun a b => a.stop ≤ b.start := by
  have hcut := cut_pieces 0 source.toList
  have hkept : (keptSpans (pieces 0 0 source.toList)).Pairwise Span.Apart :=
    List.pairwise_map.2 ((hcut.apart.imp .inl).filter _)
  have hapart : (scan source).spans.Pairwise Span.Apart :=
    ((spans_perm source).pairwise_iff fun h => Or.symm h).2 hkept
  have htokens : ((scan source).tokens.map (·.span)).Pairwise fun a b => decide (a.start ≤ b.start) := by
    refine List.pairwise_map.2 (hcut.starts.filterMap _ fun p q hle t ht u hu => decide_eq_true ?_)
    rwa [← span_of_token ht, ← span_of_token hu]
  have hstrays : ((scan source).strays.map (·.span)).Pairwise fun a b => decide (a.start ≤ b.start) := by
    refine List.pairwise_map.2 (hcut.starts.filterMap _ fun p q hle t ht u hu => decide_eq_true ?_)
    rwa [← span_of_stray ht, ← span_of_stray hu]
  have hsorted : (scan source).spans.Pairwise fun a b => a.start ≤ b.start := by
    refine (List.pairwise_merge ?_ ?_ _ _ htokens hstrays).imp of_decide_eq_true
    · intro a b c hab hbc
      exact decide_eq_true ((of_decide_eq_true hab).trans (of_decide_eq_true hbc))
    · intro a b
      simpa using Nat.le_total a.start b.start
  -- of two spans apart, the one with the later start cannot end before the other starts: neither is empty
  refine List.Pairwise.imp_of_mem (fun {a b} ha hb h => ?_) (hapart.and hsorted)
  have hb' := (spans_within b hb).nonempty
  have ha' := (spans_within a ha).nonempty
  rcases h with ⟨h | h, hle⟩
  · exact h
  · omega

/-! ## What is left out -/

/-- A comment that nothing longer than it matches goes on to the end of its line. -/
theorem newline_of_longest {body rest : List Char} (hbody : ∀ c ∈ body, (c != '\n') = true)
    (hlongest : Longest ('#' :: body) rest) : ∀ c ∈ rest.head?, c = '\n' := by
  intro c hc
  obtain ⟨rest, rfl⟩ := List.head?_eq_some_iff.1 hc
  refine Decidable.byContradiction fun hne => ?_
  have hmatches : Matches ('#' :: (body ++ [c])) := by
    refine .inl (Lexeme.mem_skippedTexts.2 (.inr ⟨_, fun d hd => ?_, rfl⟩))
    rcases List.mem_append.1 hd with hd | hd
    · exact hbody d hd
    · rw [List.mem_singleton.1 hd]
      exact bne_iff_ne.2 hne
  have hlength := hlongest _ ⟨rest, by simp⟩ hmatches
  simp at hlength

/-- **A character outside all spans is blank or in a comment**, and the comment is outside them too. -/
theorem left_out {source : String} {before after : List Char} {c : Char}
    (hsource : source.toList = before ++ c :: after)
    (hout : ∀ place ∈ (scan source).spans, ¬ place.Holds (byteLength before)) : c = ' ' ∨ c = '\t' ∨ c = '\r' ∨
      ∃ comment : Span, comment.Comment source.toList ∧ comment.Holds (byteLength before) ∧
        ∀ place ∈ (scan source).spans, place.Apart comment := by
  obtain ⟨p, hp, front, w, w', rest, rfl, rfl, hfits, hspan⟩ := (cut_pieces 0 source.toList).covers hsource
  have hholds : p.span.Holds (byteLength (front ++ w)) := by
    have hsize := c.utf8Size_pos
    rw [hspan, Span.Holds, byteLength_append, byteLength_append, byteLength]
    dsimp only
    omega
  obtain ⟨piece, place⟩ := p
  cases piece with
  | token t => exact absurd hholds (hout place (mem_spans.2 ⟨_, hp, by simp, rfl⟩))
  | stray d => exact absurd hholds (hout place (mem_spans.2 ⟨_, hp, by simp, rfl⟩))
  | skipped =>
    obtain ⟨hskipped, hlongest⟩ := hfits
    rcases Lexeme.mem_skippedTexts.1 hskipped with ⟨-, hgaps⟩ | ⟨body, hbody, hcomment⟩
    · have hgap := hgaps c (List.mem_append_right _ List.mem_cons_self)
      simp only [Lexeme.isGap, Bool.or_eq_true, beq_iff_eq, or_assoc] at hgap
      exact hgap.imp_right fun h => h.imp_right .inl
    · rw [hcomment] at hlongest hspan
      have hend := newline_of_longest hbody hlongest
      refine .inr (.inr (.inr ⟨place, ⟨body, rest, ⟨front, ?_, ?_⟩, ?_, hend⟩, hholds, ?_⟩))
      · rw [← hcomment, hsource]
        simp
      · rw [show place = _ from hspan, Nat.zero_add]
      · exact fun hmem => absurd (hbody _ hmem) (by decide)
      · intro other hother
        obtain ⟨q, hq, hkept, rfl⟩ := mem_spans.1 hother
        exact apart_of_mem hq hp fun heq => hkept (by rw [heq])

/-- **A scan accounts for a source.** -/
structure Scan.Accounts (s : Scan) (source : String) : Prop where
  apart : s.spans.Pairwise fun a b => a.stop ≤ b.start
  within : ∀ place ∈ s.spans, place.Within source
  left : ∀ before c after, source.toList = before ++ c :: after →
    (∀ place ∈ s.spans, ¬ place.Holds (byteLength before)) → c = ' ' ∨ c = '\t' ∨ c = '\r' ∨
      ∃ comment : Span, comment.Comment source.toList ∧ comment.Holds (byteLength before) ∧
        ∀ place ∈ s.spans, place.Apart comment
  tokens : ∀ p ∈ s.tokens, ∃ w rest, p.span.Cuts source.toList w rest ∧ Fits (.token p.value) w rest
  strays : ∀ p ∈ s.strays, ∃ w rest, p.span.Cuts source.toList w rest ∧ Fits (.stray p.value) w rest
  numbers : ∀ p ∈ s.tokens, ∀ v, p.value = .number v → v.isNaN = false ∧ 0.0 ≤ v

/-- **Every text is accounted for by its scan**, and no text of a number fails to read as one. -/
theorem accounts_scan (source : String) : (scan source).Accounts source ∧
    ∀ w ∈ TokenClass.number.texts, ∃ v, readNumber (String.ofList w) = .ok v ∧ v.isNaN = false ∧ 0.0 ≤ v := by
  have htokens : ∀ p ∈ (scan source).tokens, ∃ w rest,
      p.span.Cuts source.toList w rest ∧ Fits (.token p.value) w rest := by
    intro p hp
    obtain ⟨w, rest, hcuts, -, hfits⟩ := cuts_of_mem (mem_tokens.1 hp)
    exact ⟨w, rest, hcuts, hfits⟩
  refine ⟨⟨spans_apart source, spans_within, fun before c after hsource hout => left_out hsource hout, htokens,
    fun p hp => ?_, fun p hp v hv => ?_⟩, fun w hw => ⟨_, Decimal.readNumber_of_numberTexts hw⟩⟩
  · obtain ⟨w, rest, hcuts, -, hfits⟩ := cuts_of_mem (mem_strays.1 hp)
    exact ⟨w, rest, hcuts, hfits⟩
  · obtain ⟨w, -, -, k, hk, -, htoken, -⟩ := htokens p hp
    rw [hv] at htoken
    cases k with
    | sign t =>
      obtain rfl := Option.some.inj htoken
      have hsign := TokenClass.mem_sign.1 hk
      simp [TokenClass.signs] at hsign
    | number =>
      obtain ⟨hread, hvalue⟩ := Decimal.readNumber_of_numberTexts hk
      rw [TokenClass.token?, hread] at htoken
      obtain rfl := Token.number.inj (Option.some.inj htoken)
      exact hvalue
    | name => cases htoken
    | newline => cases htoken

end Token
end FixedStep
