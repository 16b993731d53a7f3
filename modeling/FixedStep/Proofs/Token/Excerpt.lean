import FixedStep.Proofs.Token.Coverage
/-!
# Excerpt — a stretch of a text is cut as it was in the text

A text can be cut into pieces in one way only (`Cut.unique`), and a piece still fits where less follows it.  So the text
from the start of one token to the end of another has the tokens between them, moved to its front (`scan_excerpt`).
-/
namespace FixedStep

def Span.move (f : Nat → Nat) (place : Span) : Span := ⟨f place.start, f place.stop⟩

/-- A thing with its place moved. -/
def Placed.move {α : Type} (f : Nat → Nat) (p : Placed α) : Placed α := ⟨p.value, p.span.move f⟩

/-! ## What fits, fits alone -/

namespace Lexeme

variable {piece piece' : Piece} {w w' rest rest' more : List Char}

theorem Longest.shorten (h : Longest w (rest ++ more)) : Longest w rest := by
  refine fun v hv => h v (hv.trans ?_)
  rw [← List.append_assoc]
  exact List.prefix_append _ _

theorem Fits.shorten (h : Fits piece w (rest ++ more)) : Fits piece w rest := by
  cases piece with
  | skipped => exact ⟨h.1, h.2.shorten⟩
  | token t =>
    obtain ⟨k, hk, honly, ht, hlongest⟩ := h
    exact ⟨k, hk, honly, ht, hlongest.shorten⟩
  | stray c =>
    refine ⟨h.1, fun v hv => h.2 v (hv.trans ?_)⟩
    rw [← List.append_assoc]
    exact List.prefix_append _ _

theorem Fits.longest (h : Fits piece w rest) : Longest w rest := by
  cases piece with
  | skipped => exact h.2
  | token t =>
    obtain ⟨-, -, -, -, hlongest⟩ := h
    exact hlongest
  | stray c => exact fun v hv hmatches => absurd hmatches (h.2 v hv)

/-- What fits is a stray character, where nothing matches, or matches itself. -/
theorem Fits.matches_or (h : Fits piece w rest) :
    Matches w ∨ ∃ c, piece = .stray c ∧ w = [c] ∧ ∀ v, v <+: w ++ rest → ¬ Matches v := by
  cases piece with
  | skipped => exact .inl (.inl h.1)
  | token t =>
    obtain ⟨k, hk, -⟩ := h
    exact .inl (.inr ⟨k, hk⟩)
  | stray c => exact .inr ⟨c, rfl, h⟩

/-- No token is spelled like a blank or a comment. -/
theorem not_mem_texts_of_skipped (h : w ∈ skippedTexts) (k : TokenClass) : w ∉ k.texts := by
  have hfirst : ∃ c cs, w = c :: cs ∧ (isGap c = true ∨ c = '#') := by
    rcases mem_skippedTexts.1 h with ⟨hne, hgaps⟩ | ⟨body, -, rfl⟩
    · obtain ⟨c, cs, rfl⟩ := List.exists_cons_of_ne_nil hne
      exact ⟨c, cs, rfl, .inl (hgaps c List.mem_cons_self)⟩
    · exact ⟨'#', body, rfl, .inr rfl⟩
  obtain ⟨c, cs, rfl, hc⟩ := hfirst
  have hrest : isNameRest c = true → False := by
    intro hrest
    obtain ⟨hgap, hhash, -⟩ := not_skipped_of_isNameRest hrest
    rcases hc with hc | hc
    · exact Bool.false_ne_true (hgap.symm.trans hc)
    · exact hhash hc
  intro hk
  cases k with
  | sign t =>
    have hsigns : ∀ s ∈ TokenClass.signs, s.1.head?.any (fun d => isGap d || d == '#') = false := by decide
    have hsign := hsigns (c :: cs, t) (TokenClass.mem_sign.1 hk)
    simp only [List.head?_cons, Option.any_some, Bool.or_eq_false_iff, beq_eq_false_iff_ne] at hsign
    exact hc.elim (fun hgap => Bool.false_ne_true (hsign.1.symm.trans hgap)) hsign.2
  | number =>
    obtain ⟨d, ds, heq, hd⟩ := TokenClass.first_of_numberTexts hk
    obtain ⟨rfl, -⟩ := List.cons.inj heq
    rcases hd with hd | rfl
    · exact hrest (isNameRest_of_isDigit hd)
    · exact absurd hc (by decide)
  | name =>
    obtain ⟨d, ds, hd, -, heq⟩ := mem_nameTexts.1 hk
    obtain ⟨rfl, -⟩ := List.cons.inj heq
    exact hrest (isNameRest_of_isNameStart hd)
  | newline =>
    obtain ⟨-, hlines⟩ := mem_repeated_oneOf.1 hk
    obtain rfl := beq_iff_eq.1 (hlines c List.mem_cons_self)
    exact absurd hc (by decide)

/-- **In front of a text one piece fits.** -/
theorem Fits.unique (h : Fits piece w rest) (h' : Fits piece' w' rest') (htext : w ++ rest = w' ++ rest') :
    piece = piece' ∧ w = w' := by
  have hfront : w <+: w' ++ rest' := htext ▸ List.prefix_append w rest
  have hfront' : w' <+: w ++ rest := htext ▸ List.prefix_append w' rest'
  rcases h.matches_or with hw | ⟨c, rfl, rfl, hnone⟩
  · rcases h'.matches_or with hw' | ⟨c', rfl, rfl, hnone'⟩
    · have hlength : w.length = w'.length :=
        Nat.le_antisymm (h'.longest w hfront hw) (h.longest w' hfront' hw')
      obtain ⟨rfl, rfl⟩ := List.append_inj htext hlength
      refine ⟨?_, rfl⟩
      cases piece <;> cases piece'
      case skipped.skipped => rfl
      case token.token t t' =>
        obtain ⟨k, -, honly, ht, -⟩ := h
        obtain ⟨k', hk', -, ht', -⟩ := h'
        obtain rfl := honly k' hk'
        rw [Option.some.inj (ht.symm.trans ht')]
      case skipped.token t =>
        obtain ⟨k, hk, -⟩ := h'
        exact absurd hk (not_mem_texts_of_skipped h.1 k)
      case token.skipped t =>
        obtain ⟨k, hk, -⟩ := h
        exact absurd hk (not_mem_texts_of_skipped h'.1 k)
      case stray.skipped c | stray.token c t => exact absurd hw (h.2 w (List.prefix_append _ _))
      case skipped.stray c | token.stray t c | stray.stray d c => exact absurd hw (h'.2 w (List.prefix_append _ _))
    · exact absurd hw (hnone' w hfront)
  · rcases h'.matches_or with hw' | ⟨c', rfl, rfl, -⟩
    · exact absurd hw' (hnone w' hfront')
    · obtain ⟨rfl, -⟩ := List.cons.inj htext
      exact ⟨rfl, rfl⟩

end Lexeme

/-! ## Cuts -/

namespace Token

open Lexeme (Fits)

variable {position : Nat} {cs : List Char} {p : Placed Piece} {ps qs : List (Placed Piece)}

theorem Cut.of_nil (h : Cut position cs []) : cs = [] := by
  cases h
  rfl

theorem Cut.of_cons (h : Cut position cs (p :: ps)) : ∃ w rest, cs = w ++ rest ∧ w ≠ [] ∧
    p.span = ⟨position, position + byteLength w⟩ ∧ Fits p.value w rest ∧ Cut (position + byteLength w) rest ps := by
  cases h with
  | cons hw hfits hrest => exact ⟨_, _, rfl, hw, rfl, hfits, hrest⟩

/-- **A text is cut in one way.** -/
theorem Cut.unique : ∀ {ps qs : List (Placed Piece)} {position : Nat} {cs : List Char}, Cut position cs ps →
    Cut position cs qs → ps = qs
  | [], [], _, _, _, _ => rfl
  | [], q :: qs, _, _, h, h' => by
    obtain ⟨w, rest, hcs, hw, -⟩ := h'.of_cons
    exact absurd (List.append_eq_nil_iff.1 (hcs.symm.trans h.of_nil)).1 hw
  | p :: ps, [], _, _, h, h' => by
    obtain ⟨w, rest, hcs, hw, -⟩ := h.of_cons
    exact absurd (List.append_eq_nil_iff.1 (hcs.symm.trans h'.of_nil)).1 hw
  | ⟨piece, place⟩ :: ps, ⟨piece', place'⟩ :: qs, _, _, h, h' => by
    obtain ⟨w, rest, rfl, -, hplace, hfits, hrest⟩ := h.of_cons
    obtain ⟨w', rest', htext, -, hplace', hfits', hrest'⟩ := h'.of_cons
    obtain ⟨rfl, rfl⟩ := hfits.unique hfits' htext
    obtain rfl := List.append_cancel_left htext
    rw [hrest.unique hrest', show place = place' from hplace.trans hplace'.symm]

/-- A cut splits where a piece ends, and its first pieces fit without what follows. -/
theorem Cut.split : ∀ {ps : List (Placed Piece)} {position : Nat} {cs : List Char}, Cut position cs (ps ++ qs) →
    ∃ xs ys, cs = xs ++ ys ∧ Cut position xs ps ∧ Cut (position + byteLength xs) ys qs
  | [], position, cs, h => ⟨[], cs, rfl, .nil position, h⟩
  | ⟨piece, place⟩ :: ps, position, cs, h => by
    obtain ⟨w, rest, rfl, hw, hplace, hfits, hrest⟩ := h.of_cons
    obtain ⟨xs, ys, rfl, hxs, hys⟩ := hrest.split
    obtain rfl := hplace
    refine ⟨w ++ xs, ys, (List.append_assoc _ _ _).symm, .cons hw hfits.shorten hxs, ?_⟩
    rwa [byteLength_append, ← Nat.add_assoc]

theorem Cut.start_eq (h : Cut position cs (p :: ps)) : p.span.start = position := by
  obtain ⟨w, rest, -, -, hplace, -⟩ := h.of_cons
  rw [hplace]

theorem Cut.stop_eq (h : Cut position cs (ps ++ [p])) : p.span.stop = position + byteLength cs := by
  obtain ⟨xs, ys, rfl, -, hys⟩ := h.split
  obtain ⟨w, rest, rfl, -, hplace, -, hrest⟩ := hys.of_cons
  rw [hplace, hrest.of_nil, List.append_nil, byteLength_append, Nat.add_assoc]

/-- A cut moved towards the front. -/
theorem Cut.moved {k : Nat} (h : Cut position cs ps) (hk : k ≤ position) :
    Cut (position - k) cs (ps.map (·.move (· - k))) := by
  induction h with
  | nil => exact .nil _
  | @cons position piece w rest ps hw hfits hrest ih =>
    have hnext : position + byteLength w - k = position - k + byteLength w := by omega
    have hcons := Cut.cons hw hfits (hnext ▸ ih (Nat.le_add_right_of_le hk))
    rwa [← hnext] at hcons

/-! ## Excerpts -/

/-- A stretch of what passes a filter comes from a stretch that begins and ends with what passes. -/
theorem exists_tight {α β : Type} {f : α → Option β} {l : List α} {before mid after : List β} {first last : β}
    (h : l.filterMap f = before ++ mid ++ after) (hfirst : mid.head? = some first) (hlast : mid.getLast? = some last) :
    ∃ a m b x xs y ys, l = a ++ m ++ b ∧ m.filterMap f = mid ∧ m = x :: xs ∧ f x = some first ∧ m = ys ++ [y] ∧
      f y = some last := by
  obtain ⟨upto, b, rfl, hupto, -⟩ := List.filterMap_eq_append_iff.1 h
  obtain ⟨a, m, rfl, -, hm⟩ := List.filterMap_eq_append_iff.1 hupto
  -- what is filtered out behind the last one is left to what follows
  obtain ⟨init, hinit⟩ := List.getLast?_eq_some_iff.1 hlast
  obtain ⟨ys, zs, rfl, hys, hzs⟩ := List.filterMap_eq_append_iff.1 (hm.trans hinit)
  obtain ⟨skipped, y, behind, rfl, hskipped, hy, -⟩ := List.filterMap_eq_cons_iff.1 hzs
  have hmid : (ys ++ skipped ++ [y]).filterMap f = mid := by
    rw [List.filterMap_append, List.filterMap_append, hys, List.filterMap_eq_nil_iff.2 hskipped, hinit,
      List.filterMap_cons_some hy]
    simp
  -- and what is filtered out before the first one to what comes before
  obtain ⟨tail, htail⟩ := List.head?_eq_some_iff.1 hfirst
  obtain ⟨front, x, xs, hsplit, hfront, hx, hxs⟩ := List.filterMap_eq_cons_iff.1 (hmid.trans htail)
  have hend : (x :: xs).getLast? = some y := by
    have hlastOf := congrArg List.getLast? hsplit
    rw [List.getLast?_concat, List.getLast?_append, List.getLast?_cons] at hlastOf
    rw [List.getLast?_cons, hlastOf]
    rfl
  obtain ⟨ys', hys'⟩ := List.getLast?_eq_some_iff.1 hend
  refine ⟨a ++ front, x :: xs, behind ++ b, x, xs, y, ys', ?_, ?_, rfl, hx, hys', hy⟩
  · rw [List.append_assoc a front, ← hsplit]
    simp
  · rw [List.filterMap_cons_some hx, hxs, htail]

theorem filterMap_move_token (f : Nat → Nat) : ∀ ps : List (Placed Piece),
    (ps.map (·.move f)).filterMap ofPiece? = (ps.filterMap ofPiece?).map (·.move f)
  | [] => rfl
  | ⟨.skipped, _⟩ :: ps => filterMap_move_token f ps
  | ⟨.token _, _⟩ :: ps => congrArg (_ :: ·) (filterMap_move_token f ps)
  | ⟨.stray _, _⟩ :: ps => filterMap_move_token f ps

theorem filterMap_move_stray (f : Nat → Nat) : ∀ ps : List (Placed Piece),
    (ps.map (·.move f)).filterMap strayOf? = (ps.filterMap strayOf?).map (·.move f)
  | [] => rfl
  | ⟨.skipped, _⟩ :: ps => filterMap_move_stray f ps
  | ⟨.token _, _⟩ :: ps => filterMap_move_stray f ps
  | ⟨.stray _, _⟩ :: ps => congrArg (_ :: ·) (filterMap_move_stray f ps)

/-- **The text from one token to another has the tokens between them**, moved to its front. -/
theorem scan_excerpt {source : String} {before mid after : List (Placed Token)} {first last : Placed Token}
    (hscan : scan source = ⟨before ++ mid ++ after, []⟩) (hfirst : mid.head? = some first)
    (hlast : mid.getLast? = some last) : ∃ w rest,
      (⟨first.span.start, last.span.stop⟩ : Span).Cuts source.toList w rest ∧
        scan (String.ofList w) = ⟨mid.map (·.move (· - first.span.start)), []⟩ := by
  have htokens := congrArg Scan.tokens hscan
  have hstrays := congrArg Scan.strays hscan
  obtain ⟨a, m, b, x, xs, y, ys, hpieces, hm, hx, hxfirst, hy, hylast⟩ := exists_tight htokens hfirst hlast
  have hcut := cut_pieces 0 source.toList
  rw [hpieces] at hcut
  obtain ⟨upto, rest, hsource, hupto, -⟩ := hcut.split
  obtain ⟨front, w, rfl, -, hw⟩ := hupto.split
  rw [Nat.zero_add] at hw
  have hstart : first.span.start = byteLength front := by
    rw [← span_of_token hxfirst]
    exact (hx ▸ hw).start_eq
  have hstop : last.span.stop = byteLength front + byteLength w := by
    rw [← span_of_token hylast]
    exact (hy ▸ hw).stop_eq
  have hnone : m.filterMap strayOf? = [] := by
    have hall : (pieces 0 0 source.toList).filterMap strayOf? = [] := hstrays
    rw [hpieces, List.filterMap_append, List.filterMap_append] at hall
    exact (List.append_eq_nil_iff.1 (List.append_eq_nil_iff.1 hall).1).2
  have halone : pieces 0 0 w = m.map (·.move (· - byteLength front)) := by
    have hmoved := hw.moved (Nat.le_refl _)
    rw [Nat.sub_self] at hmoved
    exact (cut_pieces 0 w).unique hmoved
  refine ⟨w, rest, ⟨front, by rw [hsource, List.append_assoc], by rw [hstart, hstop]⟩, ?_⟩
  rw [scan, String.toList_ofList, halone, filterMap_move_token, filterMap_move_stray, hm, hnone, hstart]
  rfl

end Token
end FixedStep
