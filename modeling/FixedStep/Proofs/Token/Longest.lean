import FixedStep.Proofs.Token.Number
/-!
# Longest — a piece is the longest match at its place

The piece read at the front of a text is passed over or a token, of the only class that its text has, and nothing longer
in front is either; a stray character begins neither (`fits_read`).
-/
namespace FixedStep
namespace Lexeme

/-- A text that is passed over or is of a class of tokens. -/
def Matches (w : List Char) : Prop := w ∈ skippedTexts ∨ ∃ k : TokenClass, w ∈ k.texts

/-- No text in front of `w ++ rest` that matches is longer than `w`. -/
def Longest (w rest : List Char) : Prop := ∀ v, v <+: w ++ rest → Matches v → v.length ≤ w.length

/-- **A piece fits its text**, which stands before `rest`. -/
def Fits : Piece → List Char → List Char → Prop
  | .skipped, w, rest => w ∈ skippedTexts ∧ Longest w rest
  | .token t, w, rest =>
    ∃ k : TokenClass, w ∈ k.texts ∧ (∀ k' : TokenClass, w ∈ k'.texts → k' = k) ∧ k.token? w = some t ∧ Longest w rest
  | .stray c, w, rest => w = [c] ∧ ∀ v, v <+: w ++ rest → ¬ Matches v

variable {c : Char} {cs v : List Char}

/-! ## What the first character decides -/

theorem read_comment (cs : List Char) : read '#' cs = (.skipped, runLength (· != '\n') cs) := rfl

theorem read_newline (cs : List Char) : read '\n' cs = (.token .newline, runLength (· == '\n') cs) := rfl

theorem read_nameStart (hc : isNameStart c) (cs : List Char) :
    read c cs = (.token (.name (String.ofList (c :: cs.takeWhile isNameRest))), (cs.takeWhile isNameRest).length) := by
  obtain ⟨hgap, hhash, hline⟩ := not_skipped_of_isNameRest (isNameRest_of_isNameStart hc)
  rw [read, hgap, if_neg Bool.false_ne_true, if_neg hhash, if_neg hline, if_pos hc]

theorem read_numeric (hc : c.isDigit ∨ c = '.') {n : Nat} (hrun : Decimal.run (c :: cs) = n + 1) :
    read c cs = (.token (.number (Decimal.ofSpelling (c :: cs.take n)).toFloat), n) := by
  have hplain : isGap c = false ∧ c ≠ '#' ∧ c ≠ '\n' ∧ isNameStart c = false := by
    rcases hc with hc | rfl
    · obtain ⟨hgap, hhash, hline⟩ := not_skipped_of_isNameRest (isNameRest_of_isDigit hc)
      exact ⟨hgap, hhash, hline, not_isNameStart_of_isDigit hc⟩
    · decide
  rw [read, hplain.1, if_neg Bool.false_ne_true, if_neg hplain.2.1, if_neg hplain.2.2.1, hplain.2.2.2,
    if_neg Bool.false_ne_true, hrun]

theorem read_power (cs : List Char) : read '*' ('*' :: cs) = (.token .power, 1) := rfl

/-- A sign is one symbol, but for the power sign. -/
theorem sign_spelling {t : Token} (h : v ∈ (TokenClass.sign t).texts) :
    v = ['*', '*'] ∧ t = .power ∨ ∃ d, v = [d] ∧ symbol? d = some t := by
  have hsigns : ∀ s ∈ TokenClass.signs, s.1 = ['*', '*'] ∧ s.2 = .power ∨
      s.1.length = 1 ∧ s.1.head?.bind symbol? = some s.2 := by decide
  refine (hsigns (v, t) (TokenClass.mem_sign.1 h)).imp_right fun ⟨hlength, hsymbol⟩ => ?_
  obtain ⟨d, rfl⟩ := List.length_eq_one_iff.1 hlength
  exact ⟨d, rfl, hsymbol⟩

theorem sign_of_symbol {t : Token} (h : symbol? c = some t) : [c] ∈ (TokenClass.sign t).texts := by
  refine TokenClass.mem_sign.2 ?_
  unfold symbol? at h
  split at h <;> cases h
  all_goals decide

/-! ## Nothing longer matches -/

theorem length_le_runLength {p : Char → Bool} (hv : v <+: cs) (hp : ∀ d ∈ v, p d) : v.length ≤ runLength p cs := by
  obtain ⟨rest, rfl⟩ := hv
  rw [runLength, List.takeWhile_append_of_pos hp, List.length_append]
  exact Nat.le_add_right _ _

/-- **Whatever matches in front of a text is no longer than what is read there**, and something is. -/
theorem length_le_of_matches (hv : v <+: c :: cs) (hmatches : Matches v) :
    (∀ d, (read c cs).1 ≠ .stray d) ∧ v.length ≤ (read c cs).2 + 1 := by
  rcases hmatches with hskipped | ⟨k, hk⟩
  · rcases mem_skippedTexts.1 hskipped with ⟨hne, hgaps⟩ | ⟨body, hbody, rfl⟩
    · obtain ⟨d, v, rfl⟩ := List.exists_cons_of_ne_nil hne
      obtain ⟨rfl, hrest⟩ := List.cons_prefix_cons.1 hv
      obtain ⟨hd, hgaps⟩ := List.forall_mem_cons.1 hgaps
      rw [read_gap hd]
      exact ⟨nofun, Nat.succ_le_succ (length_le_runLength hrest hgaps)⟩
    · obtain ⟨rfl, hrest⟩ := List.cons_prefix_cons.1 hv
      rw [read_comment]
      exact ⟨nofun, Nat.succ_le_succ (length_le_runLength hrest hbody)⟩
  · cases k with
    | sign t =>
      rcases sign_spelling hk with ⟨rfl, rfl⟩ | ⟨d, rfl, hd⟩
      · obtain ⟨rfl, hrest⟩ := List.cons_prefix_cons.1 hv
        obtain ⟨rest, rfl⟩ := hrest
        rw [List.singleton_append, read_power]
        exact ⟨nofun, Nat.le_refl _⟩
      · obtain ⟨rfl, -⟩ := List.cons_prefix_cons.1 hv
        refine ⟨fun e => ?_, Nat.succ_le_succ (Nat.zero_le _)⟩
        by_cases hstars : d = '*' → cs.head? ≠ some '*'
        · rw [read_symbol hd hstars]
          exact nofun
        · obtain ⟨rfl, hstar⟩ := Classical.not_imp.1 hstars
          obtain ⟨rest, rfl⟩ := List.head?_eq_some_iff.1 (Decidable.not_not.1 hstar)
          rw [read_power]
          exact nofun
    | number =>
      obtain ⟨d, v', rfl, hd⟩ := TokenClass.first_of_numberTexts hk
      obtain ⟨rfl, -⟩ := List.cons_prefix_cons.1 hv
      obtain ⟨rest, hrest⟩ := hv
      have hlongest := Decimal.run_longest hk rest
      rw [hrest] at hlongest
      obtain ⟨n, hn⟩ := Nat.exists_eq_add_of_lt (Nat.lt_of_lt_of_le (Nat.zero_lt_succ _) hlongest)
      rw [Nat.zero_add] at hn
      rw [read_numeric hd hn]
      exact ⟨nofun, hn ▸ hlongest⟩
    | name =>
      obtain ⟨d, v, hd, hv', rfl⟩ := mem_nameTexts.1 hk
      obtain ⟨rfl, hrest⟩ := List.cons_prefix_cons.1 hv
      rw [read_nameStart hd]
      exact ⟨nofun, Nat.succ_le_succ (length_le_runLength hrest hv')⟩
    | newline =>
      obtain ⟨hne, hlines⟩ := mem_repeated_oneOf.1 hk
      obtain ⟨d, v, rfl⟩ := List.exists_cons_of_ne_nil hne
      obtain ⟨rfl, hrest⟩ := List.cons_prefix_cons.1 hv
      obtain ⟨hd, hmore⟩ := List.forall_mem_cons.1 hlines
      obtain rfl := beq_iff_eq.1 hd
      rw [read_newline]
      exact ⟨nofun, Nat.succ_le_succ (length_le_runLength hrest hmore)⟩

/-! ## What is read matches -/

theorem take_runLength (p : Char → Bool) (cs : List Char) : cs.take (runLength p cs) = cs.takeWhile p :=
  (List.prefix_iff_eq_take.1 (List.takeWhile_prefix _)).symm

theorem forall_takeWhile (p : Char → Bool) (cs : List Char) : ∀ c ∈ cs.takeWhile p, p c :=
  List.all_eq_true.1 List.all_takeWhile

theorem longest_read (c : Char) (cs : List Char) :
    Longest (c :: cs.take (read c cs).2) (cs.drop (read c cs).2) := by
  intro v hv hmatches
  rw [List.cons_append, List.take_append_drop] at hv
  have hread := (length_le_of_matches hv hmatches).2
  have hlength := hv.length_le
  rw [List.length_cons] at hlength
  rw [List.length_cons, List.length_take]
  omega

theorem fits_skipped {n : Nat} (hread : read c cs = (.skipped, n)) (hskipped : c :: cs.take n ∈ skippedTexts) :
    Fits (read c cs).1 (c :: cs.take (read c cs).2) (cs.drop (read c cs).2) := by
  have hlongest := longest_read c cs
  rw [hread] at hlongest ⊢
  exact ⟨hskipped, hlongest⟩

theorem fits_token {n : Nat} {t : Token} {k : TokenClass} (hread : read c cs = (.token t, n))
    (hk : c :: cs.take n ∈ k.texts) (ht : k.token? (c :: cs.take n) = some t) :
    Fits (read c cs).1 (c :: cs.take (read c cs).2) (cs.drop (read c cs).2) := by
  have hlongest := longest_read c cs
  rw [hread] at hlongest ⊢
  exact ⟨k, hk, fun k' hk' => TokenClass.eq_of_mem hk' hk, ht, hlongest⟩

/-- **The piece read in front of a text fits it.** -/
theorem fits_read (c : Char) (cs : List Char) :
    Fits (read c cs).1 (c :: cs.take (read c cs).2) (cs.drop (read c cs).2) := by
  by_cases hgap : isGap c = true
  · refine fits_skipped (read_gap hgap cs) (mem_skippedTexts.2 (.inl ⟨List.cons_ne_nil _ _, ?_⟩))
    rw [take_runLength]
    exact List.forall_mem_cons.2 ⟨hgap, forall_takeWhile _ _⟩
  by_cases hhash : c = '#'
  · subst hhash
    refine fits_skipped (read_comment cs) (mem_skippedTexts.2 (.inr ⟨_, ?_, rfl⟩))
    rw [take_runLength]
    exact forall_takeWhile _ _
  by_cases hline : c = '\n'
  · subst hline
    refine fits_token (k := .newline) (read_newline cs) (mem_repeated_oneOf.2 ⟨List.cons_ne_nil _ _, ?_⟩) rfl
    rw [take_runLength]
    exact List.forall_mem_cons.2 ⟨rfl, forall_takeWhile _ _⟩
  by_cases hname : isNameStart c = true
  · have htake : cs.take (cs.takeWhile isNameRest).length = cs.takeWhile isNameRest := take_runLength isNameRest cs
    refine fits_token (k := .name) (read_nameStart hname cs) (mem_nameTexts.2 ⟨c, _, hname, ?_, rfl⟩) ?_
    · rw [htake]
      exact forall_takeWhile _ _
    · rw [htake]
      rfl
  cases hrun : Decimal.run (c :: cs) with
  | succ n =>
    have hpos : 0 < Decimal.run (c :: cs) := hrun ▸ Nat.zero_lt_succ n
    obtain ⟨w, rest, hw, hnumber, hlength⟩ := Decimal.exists_number hpos
    have htake : c :: cs.take n = w := by
      rw [← List.take_succ_cons, ← hrun, hlength, hw, List.take_left]
    obtain ⟨d, ds, hfirst, hd⟩ := TokenClass.first_of_numberTexts hnumber
    obtain rfl : c = d := (List.cons.inj (htake.trans hfirst)).1
    refine fits_token (k := .number) (read_numeric hd hrun) (htake ▸ hnumber) ?_
    rw [htake, TokenClass.token?, (Decimal.readNumber_of_numberTexts hnumber).1]
    rfl
  | zero =>
    by_cases hstars : c = '*' ∧ cs.head? = some '*'
    · obtain ⟨rfl, hstar⟩ := hstars
      obtain ⟨rest, rfl⟩ := List.head?_eq_some_iff.1 hstar
      exact fits_token (k := .sign .power) (read_power rest) (TokenClass.mem_sign.2 List.mem_cons_self) rfl
    · cases hsymbol : symbol? c with
      | some t =>
        exact fits_token (k := .sign t) (read_symbol hsymbol fun hc hstar => hstars ⟨hc, hstar⟩)
          (sign_of_symbol hsymbol) rfl
      | none =>
        have hread : read c cs = (.stray c, 0) := by
          rw [read, if_neg hgap, if_neg hhash, if_neg hline, if_neg hname]
          simp only [hrun, if_neg hstars, hsymbol]
        rw [hread]
        refine ⟨rfl, fun v hv hmatches => ?_⟩
        have hfront : v <+: c :: cs := hv
        exact (length_le_of_matches hfront hmatches).1 c (by rw [hread])

end Lexeme
end FixedStep
