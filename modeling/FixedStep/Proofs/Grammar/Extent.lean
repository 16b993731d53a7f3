import FixedStep.Proofs.Grammar.Reading
import FixedStep.Proofs.Registration
import FixedStep.Proofs.Token.Coverage
/-!
# Extent — where an expression stands among the tokens

The tokens of a text stand in order and apart (`inOrder_scan`).  So an expression reaches from where one of its tokens
begins to where one ends, its operands lie inside of it one behind the other, and a name is its own text
(`Sum.extents`).
-/
namespace FixedStep

/-! ## Tokens in order -/

/-- Tokens that are not empty, each behind the one before it. -/
structure InOrder (ts : List (Placed Token)) : Prop where
  nonempty : ∀ t ∈ ts, t.span.start < t.span.stop
  apart : ts.Pairwise fun t u => t.span.stop ≤ u.span.start

namespace InOrder

variable {t : Placed Token} {xs ys : List (Placed Token)}

theorem append (h : InOrder (xs ++ ys)) :
    InOrder xs ∧ InOrder ys ∧ ∀ x ∈ xs, ∀ y ∈ ys, x.span.stop ≤ y.span.start := by
  obtain ⟨hxs, hys, hbetween⟩ := List.pairwise_append.1 h.apart
  exact ⟨⟨fun x hx => h.nonempty x (List.mem_append_left _ hx), hxs⟩,
    ⟨fun y hy => h.nonempty y (List.mem_append_right _ hy), hys⟩, hbetween⟩

theorem tail (h : InOrder (t :: ys)) : InOrder ys := (@append [t] ys h).2.1

theorem sublist (h : InOrder ys) (hsub : xs.Sublist ys) : InOrder xs :=
  ⟨fun x hx => h.nonempty x (hsub.subset hx), h.apart.sublist hsub⟩

/-- No token begins before the first one. -/
theorem start_le (h : InOrder (t :: ys)) : ∀ u ∈ t :: ys, t.span.start ≤ u.span.start := by
  intro u hu
  rcases List.mem_cons.1 hu with rfl | hu
  · exact Nat.le_refl _
  · exact (h.nonempty t List.mem_cons_self).le.trans ((List.pairwise_cons.1 h.apart).1 u hu)

/-- No token ends after the last one. -/
theorem stop_le (h : InOrder (xs ++ [t])) : ∀ u ∈ xs ++ [t], u.span.stop ≤ t.span.stop := by
  intro u hu
  rcases List.mem_append.1 hu with hu | hu
  · have hbefore := h.append.2.2 u hu t List.mem_cons_self
    exact hbefore.trans (h.nonempty t (List.mem_append_right _ List.mem_cons_self)).le
  · rw [List.mem_singleton.1 hu]

end InOrder

theorem Token.inOrder_scan (source : String) : InOrder (scan source).tokens := by
  constructor
  · intro t ht
    obtain ⟨w, rest, hcuts, hw, -⟩ := cuts_of_mem (mem_tokens.1 ht)
    exact (hcuts.within hw).nonempty
  · refine (cut_pieces 0 source.toList).apart.filterMap _ fun p q hle t ht u hu => ?_
    rwa [← span_of_token ht, ← span_of_token hu]

/-- The text at the place of a name is the name. -/
theorem Token.cuts_name {source n : String} {place : Span} (h : ⟨.name n, place⟩ ∈ (scan source).tokens) :
    ∃ rest, place.Cuts source.toList n.toList rest := by
  obtain ⟨w, rest, hcuts, -, k, hk, -, htoken, -⟩ := cuts_of_mem (mem_tokens.1 h)
  cases k with
  | sign t =>
    obtain rfl := Option.some.inj htoken
    have hsign := TokenClass.mem_sign.1 hk
    simp [TokenClass.signs] at hsign
  | number =>
    obtain ⟨v, -, hv⟩ := Option.map_eq_some_iff.1 htoken
    cases hv
  | name =>
    obtain rfl := Token.name.inj (Option.some.inj htoken)
    exact ⟨rest, by rwa [String.toList_ofList]⟩
  | newline => cases htoken

/-! ## Extents -/

namespace Expr

/-- What lies side by side in a node: its operands, or the name called and the arguments. -/
def inner : Expr → List Span
  | number _ _ => []
  | name _ _ => []
  | signed _ e _ => [e.span]
  | binary _ l r _ => [l.span, r.span]
  | call f args _ => f.span :: args.map span

/-- The name that a node holds itself. -/
def idents : Expr → List Ident
  | name n place => [⟨n, place⟩]
  | call f _ _ => [f]
  | _ => []

/-- **Where a node stands among tokens.** -/
structure Extent (e : Expr) (ts : List (Placed Token)) : Prop where
  starts : ∃ t ∈ ts, t.span.start = e.span.start
  stops : ∃ t ∈ ts, t.span.stop = e.span.stop
  nonempty : e.span.start < e.span.stop
  within : ∀ place ∈ e.inner, e.span.start ≤ place.start ∧ place.stop ≤ e.span.stop
  ordered : e.inner.Pairwise fun a b => a.stop ≤ b.start
  named : ∀ i ∈ e.idents, ⟨.name i.name, i.span⟩ ∈ ts

variable {e l r : Expr} {t : Placed Token} {ts xs ys : List (Placed Token)}

theorem Extent.mono (h : e.Extent xs) (hsub : xs ⊆ ys) : e.Extent ys := by
  obtain ⟨t, ht, hstart⟩ := h.starts
  obtain ⟨u, hu, hstop⟩ := h.stops
  exact ⟨⟨t, hsub ht, hstart⟩, ⟨u, hsub hu, hstop⟩, h.nonempty, h.within, h.ordered, fun i hi => hsub (h.named i hi)⟩

theorem Extent.apart (hl : l.Extent xs) (hr : r.Extent ys) (h : ∀ x ∈ xs, ∀ y ∈ ys, x.span.stop ≤ y.span.start) :
    l.span.stop ≤ r.span.start := by
  obtain ⟨x, hx, hstop⟩ := hl.stops
  obtain ⟨y, hy, hstart⟩ := hr.starts
  rw [← hstop, ← hstart]
  exact h x hx y hy

/-- An operation reaches from `start` to `stop`, perhaps beyond its operands. -/
theorem extent_binary (op : Operator) {start stop : Nat} (hl : l.Extent xs) (hr : r.Extent ys)
    (h : InOrder (xs ++ t :: ys)) (hstart : (∃ x ∈ xs, x.span.start = start) ∧ start ≤ l.span.start)
    (hstop : (∃ y ∈ ys, y.span.stop = stop) ∧ r.span.stop ≤ stop) :
    (binary op l r ⟨start, stop⟩).Extent (xs ++ t :: ys) := by
  obtain ⟨-, -, hbetween⟩ := h.append
  have hapart := hl.apart hr fun x hx y hy => hbetween x hx y (List.mem_cons_of_mem _ hy)
  obtain ⟨⟨x, hx, hxstart⟩, hbefore⟩ := hstart
  obtain ⟨⟨y, hy, hystop⟩, hafter⟩ := hstop
  have hleft := hl.nonempty
  have hright := hr.nonempty
  have hlstop : l.span.stop ≤ stop := by omega
  have hrstart : start ≤ r.span.start := by omega
  have hnonempty : start < stop := by omega
  refine ⟨⟨x, List.mem_append_left _ hx, hxstart⟩, ⟨y, ?_, hystop⟩, hnonempty, ?_, List.pairwise_pair.2 hapart,
    List.forall_mem_nil _⟩
  · exact List.mem_append_right _ (List.mem_cons_of_mem _ hy)
  · simp only [inner, List.forall_mem_cons]
    exact ⟨⟨hbefore, hlstop⟩, ⟨hrstart, hafter⟩, List.forall_mem_nil _⟩

theorem extent_signed (s : Sign) (he : e.Extent ts) (h : InOrder (t :: ts)) :
    (signed s e ⟨t.span.start, e.span.stop⟩).Extent (t :: ts) := by
  obtain ⟨x, hx, hstart⟩ := he.starts
  obtain ⟨y, hy, hstop⟩ := he.stops
  have hbefore : t.span.start ≤ e.span.start := hstart ▸ h.start_le x (List.mem_cons_of_mem _ hx)
  refine ⟨⟨t, List.mem_cons_self, rfl⟩, ⟨y, List.mem_cons_of_mem _ hy, hstop⟩, hbefore.trans_lt he.nonempty, ?_,
    List.pairwise_singleton _ _, List.forall_mem_nil _⟩
  simp only [inner, List.forall_mem_cons]
  exact ⟨⟨hbefore, Nat.le_refl _⟩, List.forall_mem_nil _⟩

/-- A token that is a node by itself. -/
theorem extent_token (he : e.span = t.span) (hinner : e.inner = [])
    (hnamed : ∀ i ∈ e.idents, (⟨.name i.name, i.span⟩ : Placed Token) = t) (h : InOrder [t]) : e.Extent [t] := by
  refine ⟨⟨t, List.mem_cons_self, by rw [he]⟩, ⟨t, List.mem_cons_self, by rw [he]⟩, ?_, ?_, ?_, fun i hi => ?_⟩
  · rw [he]
    exact h.nonempty t List.mem_cons_self
  · rw [hinner]
    exact List.forall_mem_nil _
  · rw [hinner]
    exact .nil
  · rw [hnamed i hi]
    exact List.mem_cons_self

/-- A call reaches from its name to its last parenthesis. -/
theorem extent_call {n : String} {place : Span} {opening closing : Placed Token} {args : List Expr}
    (h : InOrder (⟨.name n, place⟩ :: opening :: (ts ++ [closing]))) (hargs : ∀ a ∈ args, a.Extent ts)
    (hordered : args.Pairwise fun a b => a.span.stop ≤ b.span.start) :
    (call ⟨n, place⟩ args (place.through closing.span)).Extent (⟨.name n, place⟩ :: opening :: (ts ++ [closing])) := by
  obtain ⟨hname, hrest⟩ := List.pairwise_cons.1 h.apart
  have hclosing := hname closing (List.mem_cons_of_mem _ (List.mem_append_right _ List.mem_cons_self))
  have hlast := h.nonempty closing (List.mem_cons_of_mem _ (List.mem_cons_of_mem _
    (List.mem_append_right _ List.mem_cons_self)))
  have hfirst := h.nonempty ⟨.name n, place⟩ List.mem_cons_self
  dsimp only at hclosing hfirst
  -- an argument begins behind the name and ends before the parenthesis
  have hinside : ∀ a ∈ args, place.stop ≤ a.span.start ∧ a.span.stop ≤ closing.span.start := by
    intro a ha
    obtain ⟨x, hx, hstart⟩ := (hargs a ha).starts
    obtain ⟨y, hy, hstop⟩ := (hargs a ha).stops
    constructor
    · rw [← hstart]
      exact hname x (List.mem_cons_of_mem _ (List.mem_append_left _ hx))
    · rw [← hstop]
      exact h.tail.tail.append.2.2 y hy closing List.mem_cons_self
  have hstop : place.stop ≤ closing.span.stop := hclosing.trans hlast.le
  refine ⟨⟨_, List.mem_cons_self, rfl⟩, ⟨closing, ?_, rfl⟩, hfirst.trans_le hstop, ?_, ?_, ?_⟩
  · exact List.mem_cons_of_mem _ (List.mem_cons_of_mem _ (List.mem_append_right _ List.mem_cons_self))
  · simp only [inner, List.forall_mem_cons, List.forall_mem_map]
    refine ⟨⟨Nat.le_refl _, hstop⟩, fun a ha => ?_⟩
    obtain ⟨hafter, hbefore⟩ := hinside a ha
    exact ⟨hfirst.le.trans hafter, hbefore.trans hlast.le⟩
  · refine List.pairwise_cons.2 ⟨fun place hplace => ?_, List.pairwise_map.2 hordered⟩
    obtain ⟨a, ha, rfl⟩ := List.mem_map.1 hplace
    exact (hinside a ha).1
  · intro i hi
    obtain rfl := List.mem_singleton.1 hi
    exact List.mem_cons_self

end Expr

/-! ## Phrases -/

namespace Grammar

theorem Atom.first_yield (a : Atom) : ∃ t ts, a.yield = t :: ts ∧ t.span.start = a.start := by
  cases a with
  | number v place => exact ⟨_, _, rfl, rfl⟩
  | name n place => exact ⟨_, _, rfl, rfl⟩
  | bareCall n place opening closing => exact ⟨_, _, rfl, rfl⟩
  | call n place opening args closing => exact ⟨_, _, by rw [yield], rfl⟩
  | group opening inner closing => exact ⟨_, _, by rw [yield], rfl⟩

theorem Atom.last_yield (a : Atom) : ∃ ts t, a.yield = ts ++ [t] ∧ t.span.stop = a.stop := by
  cases a with
  | number v place => exact ⟨[], _, rfl, rfl⟩
  | name n place => exact ⟨[], _, rfl, rfl⟩
  | bareCall n place opening closing => exact ⟨[_, _], _, rfl, rfl⟩
  | call n place opening args closing => exact ⟨_ :: _ :: args.yield, _, by rw [yield]; rfl, rfl⟩
  | group opening inner closing => exact ⟨_ :: inner.yield, _, by rw [yield]; rfl, rfl⟩

mutual

theorem Signed.last_yield : ∀ u : Signed, ∃ ts t, u.yield = ts ++ [t] ∧ t.span.stop = u.stop
  | .power p => Power.last_yield p
  | .sign s place u => by
    obtain ⟨ts, t, hyield, hstop⟩ := Signed.last_yield u
    exact ⟨⟨signToken s, place⟩ :: ts, t, by rw [Signed.yield, hyield]; rfl, hstop⟩

theorem Power.last_yield : ∀ p : Power, ∃ ts t, p.yield = ts ++ [t] ∧ t.span.stop = p.stop
  | .atom a => a.last_yield
  | .raised base place exponent => by
    obtain ⟨ts, t, hyield, hstop⟩ := Signed.last_yield exponent
    exact ⟨base.yield ++ ⟨.power, place⟩ :: ts, t, by rw [Power.yield, hyield]; simp, hstop⟩

end

/-- The nodes of an operation are the operation and the nodes of its operands. -/
theorem extents_binary {op : Operator} {l r : Expr} {place : Span} {t : Placed Token} {xs ys : List (Placed Token)}
    (hl : ∀ e ∈ l.parts, e.Extent xs) (hr : ∀ e ∈ r.parts, e.Extent ys)
    (h : (Expr.binary op l r place).Extent (xs ++ t :: ys)) :
    ∀ e ∈ (Expr.binary op l r place).parts, e.Extent (xs ++ t :: ys) := by
  intro e he
  rw [Expr.parts, List.mem_cons, List.mem_append] at he
  rcases he with rfl | he | he
  · exact h
  · exact (hl e he).mono (List.subset_append_left _ _)
  · exact (hr e he).mono fun t ht => List.mem_append_right _ (List.mem_cons_of_mem _ ht)

/-- Of operands that lie inside of their tokens. -/
theorem extents_joined (op : Operator) {l r : Expr} {t : Placed Token} {xs ys : List (Placed Token)}
    (hl : ∀ e ∈ l.parts, e.Extent xs) (hr : ∀ e ∈ r.parts, e.Extent ys) (h : InOrder (xs ++ t :: ys)) :
    ∀ e ∈ (joined op l r).parts, e.Extent (xs ++ t :: ys) := by
  have hleft := hl l l.mem_parts_self
  have hright := hr r r.mem_parts_self
  exact extents_binary hl hr (Expr.extent_binary op hleft hright h ⟨hleft.starts, Nat.le_refl _⟩
    ⟨hright.stops, Nat.le_refl _⟩)

mutual

/-- **The nodes of a phrase stand among its tokens.** -/
theorem Sum.extents : ∀ {s : Sum}, InOrder s.yield → ∀ e ∈ s.tree.parts, e.Extent s.yield
  | .product p, h => Product.extents (p := p) h
  | .more before op place p, h => by
    obtain ⟨hbefore, hafter, -⟩ := h.append
    exact extents_joined op.operator (Sum.extents hbefore) (Product.extents hafter.tail) h

theorem Product.extents : ∀ {p : Product}, InOrder p.yield → ∀ e ∈ p.tree.parts, e.Extent p.yield
  | .signed u, h => Signed.extents (u := u) h
  | .more before op place u, h => by
    obtain ⟨hbefore, hafter, -⟩ := h.append
    exact extents_joined op.operator (Product.extents hbefore) (Signed.extents hafter.tail) h

theorem Signed.extents : ∀ {u : Signed}, InOrder u.yield → ∀ e ∈ u.tree.parts, e.Extent u.yield
  | .power p, h => Power.extents (p := p) h
  | .sign s place u, h => by
    have hoperand := Signed.extents (u := u) h.tail
    intro e he
    rw [Signed.tree, Expr.parts, List.mem_cons] at he
    rw [Signed.yield] at h ⊢
    rcases he with rfl | he
    · exact Expr.extent_signed s (hoperand _ u.tree.mem_parts_self) h
    · exact (hoperand e he).mono (List.subset_cons_self _ _)

theorem Power.extents : ∀ {p : Power}, InOrder p.yield → ∀ e ∈ p.tree.parts, e.Extent p.yield
  | .atom a, h => Atom.extents (a := a) h
  | .raised base place exponent, h => by
    obtain ⟨hbase, hafter, -⟩ := h.append
    have hleft := Atom.extents hbase
    have hright := Signed.extents hafter.tail
    have hl := hleft _ base.tree.mem_parts_self
    have hr := hright _ exponent.tree.mem_parts_self
    -- the parentheses of the base and of the exponent are part of the power
    have hstart : (∃ t ∈ base.yield, t.span.start = base.start) ∧ base.start ≤ base.tree.span.start := by
      obtain ⟨t, ts, hyield, hfirst⟩ := base.first_yield
      obtain ⟨x, hx, hxstart⟩ := hl.starts
      rw [hyield] at hbase hx ⊢
      rw [← hfirst, ← hxstart]
      exact ⟨⟨t, List.mem_cons_self, rfl⟩, hbase.start_le x hx⟩
    have hstop : (∃ t ∈ exponent.yield, t.span.stop = exponent.stop) ∧ exponent.tree.span.stop ≤ exponent.stop := by
      obtain ⟨ts, t, hyield, hlast⟩ := exponent.last_yield
      obtain ⟨y, hy, hystop⟩ := hr.stops
      have hexponent := hafter.tail
      rw [hyield] at hexponent hy ⊢
      rw [← hlast, ← hystop]
      exact ⟨⟨t, List.mem_append_right _ List.mem_cons_self, rfl⟩, hexponent.stop_le y hy⟩
    exact extents_binary hleft hright (Expr.extent_binary .pow hl hr h hstart hstop)

theorem Atom.extents : ∀ {a : Atom}, InOrder a.yield → ∀ e ∈ a.tree.parts, e.Extent a.yield
  | .number v place, h => by
    intro e he
    obtain rfl := List.mem_singleton.1 he
    exact Expr.extent_token rfl rfl nofun h
  | .name n place, h => by
    intro e he
    obtain rfl := List.mem_singleton.1 he
    refine Expr.extent_token rfl rfl (fun i hi => ?_) h
    obtain rfl := List.mem_singleton.1 hi
    rfl
  | .bareCall n place opening closing, h => by
    intro e he
    obtain rfl := List.mem_singleton.1 he
    exact @Expr.extent_call [] n place ⟨.openParen, opening⟩ ⟨.closeParen, closing⟩ [] h nofun .nil
  | .call n place opening args closing, h => by
    obtain ⟨hargs, hordered⟩ := @Arguments.extents args h.tail.tail.append.1
    intro e he
    rw [Atom.tree, Expr.parts, List.mem_cons] at he
    rw [Atom.yield] at h ⊢
    rcases he with rfl | he
    · exact Expr.extent_call h (fun a ha => hargs a (Expr.mem_partsAll.2 ⟨a, ha, a.mem_parts_self⟩)) hordered
    · refine (hargs e he).mono fun t ht => ?_
      exact List.mem_cons_of_mem _ (List.mem_cons_of_mem _ (List.mem_append_left _ ht))
  | .group opening inner closing, h => by
    have hinner := Sum.extents (s := inner) h.tail.append.1
    intro e he
    exact (hinner e he).mono fun t ht => List.mem_cons_of_mem _ (List.mem_append_left _ ht)

theorem Arguments.extents : ∀ {args : Arguments}, InOrder args.yield →
    (∀ e ∈ Expr.partsAll args.trees, e.Extent args.yield) ∧
      args.trees.Pairwise fun a b => a.span.stop ≤ b.span.start
  | .first s, h => by
    have hs := Sum.extents (s := s) h
    refine ⟨fun e he => ?_, List.pairwise_singleton _ _⟩
    obtain ⟨a, ha, he⟩ := Expr.mem_partsAll.1 he
    obtain rfl := List.mem_singleton.1 ha
    exact hs e he
  | .more before comma s, h => by
    obtain ⟨hbefore, hafter, hbetween⟩ := h.append
    obtain ⟨hargs, hordered⟩ := Arguments.extents hbefore
    have hs := Sum.extents hafter.tail
    refine ⟨fun e he => ?_, List.pairwise_append.2 ⟨hordered, List.pairwise_singleton _ _, fun a ha b hb => ?_⟩⟩
    · obtain ⟨a, ha, he⟩ := Expr.mem_partsAll.1 he
      rcases List.mem_append.1 ha with ha | ha
      · exact (hargs e (Expr.mem_partsAll.2 ⟨a, ha, he⟩)).mono (List.subset_append_left _ _)
      · obtain rfl := List.mem_singleton.1 ha
        exact (hs e he).mono fun t ht => List.mem_append_right _ (List.mem_cons_of_mem _ ht)
    · obtain rfl := List.mem_singleton.1 hb
      have ha := hargs a (Expr.mem_partsAll.2 ⟨a, ha, a.mem_parts_self⟩)
      exact ha.apart (hs _ s.tree.mem_parts_self) fun x hx y hy => hbetween x hx y (List.mem_cons_of_mem _ hy)

end

end Grammar

/-! ## Equations -/

/-- The expressions of an equation: its right-hand side, if it has one, and its unit. -/
def Equation.roots (eq : Equation) : List Expr := eq.rhs.toList ++ [eq.unit]

namespace Grammar

theorem Line.sum_of_root {line : Line} {root : Expr} (h : root ∈ line.tree.roots) :
    ∃ s : Sum, s.yield <:+: line.yield ∧ s.tree = root := by
  cases line with
  | declared target place colon unit =>
    obtain rfl := List.mem_singleton.1 h
    exact ⟨unit, ((List.suffix_cons _ _).trans (List.suffix_cons _ _)).isInfix, rfl⟩
  | defined target place equals rhs colon unit =>
    rcases List.mem_append.1 h with h | h
    · obtain rfl := Option.some.inj (Option.mem_toList.1 h)
      exact ⟨rhs, ⟨[⟨.name target, place⟩, ⟨.equals, equals⟩], ⟨.colon, colon⟩ :: unit.yield, rfl⟩, rfl⟩
    · obtain rfl := List.mem_singleton.1 h
      refine ⟨unit, ?_, rfl⟩
      exact ((List.suffix_cons _ _).trans ((List.suffix_append _ _).trans ((List.suffix_cons _ _).trans
        (List.suffix_cons _ _)))).isInfix

theorem Line.target_mem_yield (line : Line) : ⟨.name line.tree.target.name, line.tree.target.span⟩ ∈ line.yield := by
  cases line <;> exact List.mem_cons_self

theorem Lines.line_of_tree {eq : Equation} : ∀ {ls : Lines}, eq ∈ ls.trees →
    ∃ line : Line, line.yield <:+: ls.yield ∧ line.tree = eq
  | .first line, h => by
    obtain rfl := List.mem_singleton.1 h
    exact ⟨line, List.infix_rfl, rfl⟩
  | .more before newline newlines line, h => by
    rcases List.mem_append.1 h with h | h
    · obtain ⟨line', hline', rfl⟩ := line_of_tree h
      refine ⟨line', hline'.trans ?_, rfl⟩
      exact ((List.prefix_append _ _).trans (List.prefix_append _ _)).isInfix
    · obtain rfl := List.mem_singleton.1 h
      exact ⟨line, (List.suffix_append _ _).isInfix, rfl⟩

theorem Sentence.line_of_tree {eq : Equation} : ∀ {d : Sentence}, eq ∈ d.trees →
    ∃ line : Line, line.yield <:+: d.yield ∧ line.tree = eq
  | .blank _, h => absurd h List.not_mem_nil
  | .lines leading body trailing, h => by
    obtain ⟨line, hline, rfl⟩ := @Lines.line_of_tree eq body h
    exact ⟨line, hline.trans (List.infix_append _ _ _), rfl⟩

end Grammar

open Grammar

/-- **Spans are nested and ordered.**  In a text without issues every node begins where a token begins and ends where
one ends, its operands lie inside of it and one behind the other, and names are their own text. -/
theorem extents_of_issues {source : String} (h : (parse source).issues = []) :
    ∃ set, (parse source).equations = some set ∧ ∀ eq ∈ set.equations,
      (∃ rest, eq.target.span.Cuts source.toList eq.target.name.toList rest) ∧
      ∀ root ∈ eq.roots, ∀ e ∈ root.parts, e.Extent (Token.scan source).tokens ∧
        ∀ i ∈ e.idents, ∃ rest, i.span.Cuts source.toList i.name.toList rest := by
  obtain ⟨hstrays, d, hyield⟩ := sentence_of_issues h
  refine ⟨_, by rw [parse_of_yield hstrays hyield], fun eq heq => ?_⟩
  obtain ⟨line, hline, rfl⟩ := Sentence.line_of_tree heq
  rw [hyield] at hline
  refine ⟨Token.cuts_name (hline.subset line.target_mem_yield), fun root hroot e he => ?_⟩
  obtain ⟨s, hs, rfl⟩ := Line.sum_of_root hroot
  have htokens := hs.trans hline
  have hextent := (Sum.extents ((Token.inOrder_scan source).sublist htokens.sublist) e he).mono htokens.subset
  exact ⟨hextent, fun i hi => Token.cuts_name (hextent.named i hi)⟩

/-- `-f((a), b) ** (2)`, after `y = ` -/
def signedCall : Expr :=
  .signed .neg
    (.binary .pow (.call ⟨"f", ⟨5, 6⟩⟩ [.name "a" ⟨8, 9⟩, .name "b" ⟨12, 13⟩] ⟨5, 14⟩) (.number 2.0 ⟨19, 20⟩) ⟨5, 21⟩)
    ⟨4, 21⟩

/-- The power ends with the parenthesis of its exponent, and so does the sign before it. -/
theorem extents_signedCall : (parse "y = -f((a), b) ** (2) : volt").issues = [] ∧
    (parse "y = -f((a), b) ** (2) : volt").equations.map (·.equations) =
      some [⟨⟨"y", ⟨0, 1⟩⟩, some signedCall, .name "volt" ⟨24, 28⟩, ⟨0, 28⟩⟩] ∧
    ∀ e ∈ signedCall.parts, e.Extent (Token.scan "y = -f((a), b) ** (2) : volt").tokens := by
  have hparse : parse "y = -f((a), b) ** (2) : volt" =
      ⟨some ⟨[⟨⟨"y", ⟨0, 1⟩⟩, some signedCall, .name "volt" ⟨24, 28⟩, ⟨0, 28⟩⟩], ⟨0, 28⟩⟩, []⟩ := by
    with_unfolding_all rfl
  have hissues : (parse "y = -f((a), b) ** (2) : volt").issues = [] := by rw [hparse]
  obtain ⟨set, hset, hextents⟩ := extents_of_issues hissues
  rw [hparse] at hset
  obtain rfl := Option.some.inj hset
  refine ⟨hissues, by rw [hparse]; rfl, fun e he => ?_⟩
  exact ((hextents _ List.mem_cons_self).2 signedCall List.mem_cons_self e he).1

end FixedStep
