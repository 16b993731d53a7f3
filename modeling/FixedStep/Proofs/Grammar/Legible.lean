import FixedStep.Proofs.Decimal.Nearest
import FixedStep.Proofs.Grammar.Reading
import FixedStep.Proofs.Kernel.Word
/-!
# Legible — what expressions of a text are made of

A name in a text begins with a letter or an underscore and goes on with these and digits, and a number has no sign.  So
it is with every token that a text is cut into (`legible_scan`), and with all that the equations of a text are made of
(`legible_of_parse`).
-/
namespace FixedStep

open Kernel (Word.isName)

/-- A token that a text can hold. -/
def Token.Legible : Token → Prop
  | .name n => Word.isName n.toList
  | .number v => v.isNaN = false ∧ Binary.isNegative v = false
  | _ => True

namespace Token

theorem legible_read {c : Char} {cs : List Char} {t : Token} (h : (Lexeme.read c cs).1 = .token t) : t.Legible := by
  unfold Lexeme.read at h
  split at h
  · cases h
  · split at h
    · cases h
    · split at h
      · cases h
        trivial
      · split at h
        · rename_i hstart
          obtain rfl := Piece.token.inj h
          rw [Legible, String.toList_ofList, Word.isName, hstart, List.all_takeWhile]
          rfl
        · split at h
          · obtain rfl := Piece.token.inj h
            exact Decimal.unsigned_toFloat _
          · split at h
            · obtain rfl := Piece.token.inj h
              trivial
            · split at h
              · rename_i t' hsymbol
                obtain rfl := Piece.token.inj h
                unfold Lexeme.symbol? at hsymbol
                split at hsymbol <;> cases hsymbol <;> trivial
              · cases h

theorem legible_pieces {t : Token} : ∀ {cs : List Char} {left position : Nat} {p : Placed Piece},
    p ∈ pieces left position cs → p.value = .token t → t.Legible
  | [], left, _, _, hp, _ => by
    cases left <;> cases hp
  | c :: cs, left + 1, position, _, hp, ht => by
    have hrest : _ ∈ pieces left (position + c.utf8Size) cs := hp
    exact legible_pieces hrest ht
  | c :: cs, 0, _, _, hp, ht => by
    rcases List.mem_cons.1 hp with rfl | hp
    · exact legible_read ht
    · exact legible_pieces hp ht

/-- **The tokens of a text are legible.** -/
theorem legible_scan {source : String} {t : Placed Token} (h : t ∈ (scan source).tokens) : t.value.Legible := by
  obtain ⟨p, hp, htoken⟩ := List.mem_filterMap.1 h
  unfold ofPiece? at htoken
  split at htoken
  · rename_i t' hvalue
    obtain rfl := Option.some.inj htoken
    exact legible_pieces hp hvalue
  · cases htoken

end Token

namespace Expr

mutual

/-- An expression of legible names and numbers. -/
def Legible : Expr → Prop
  | number v _ => (Token.number v).Legible
  | name n _ => (Token.name n).Legible
  | signed _ e _ => e.Legible
  | binary _ l r _ => l.Legible ∧ r.Legible
  | call f args _ => (Token.name f.name).Legible ∧ AllLegible args

def AllLegible : List Expr → Prop
  | [] => True
  | e :: es => e.Legible ∧ AllLegible es

end

theorem allLegible_append : ∀ {es fs : List Expr}, AllLegible es → AllLegible fs → AllLegible (es ++ fs)
  | [], _, _, hfs => hfs
  | _ :: _, _, hes, hfs => ⟨hes.1, allLegible_append hes.2 hfs⟩

mutual

theorem legible_called : ∀ {e : Expr}, e.Legible → ∀ n ∈ Scope.calledIn e, Word.isName n.toList
  | .number _ _, _, _, h => absurd h List.not_mem_nil
  | .name _ _, _, _, h => absurd h List.not_mem_nil
  | .signed _ e _, he, n, h => legible_called (e := e) he n h
  | .binary _ l r _, he, n, h => by
    rcases List.mem_append.1 h with h | h
    · exact legible_called he.1 n h
    · exact legible_called he.2 n h
  | .call f args _, he, n, h => by
    rcases List.mem_cons.1 h with rfl | h
    · exact he.1
    · exact legible_calledAll he.2 n h

theorem legible_calledAll : ∀ {es : List Expr}, AllLegible es → ∀ n ∈ Scope.calledInAll es, Word.isName n.toList
  | [], _, _, h => absurd h List.not_mem_nil
  | _ :: _, hes, n, h => by
    rcases List.mem_append.1 h with h | h
    · exact legible_called hes.1 n h
    · exact legible_calledAll hes.2 n h

end

mutual

theorem legible_used : ∀ {e : Expr}, e.Legible → ∀ n ∈ Scope.usedIn e, Word.isName n.toList
  | .number _ _, _, _, h => absurd h List.not_mem_nil
  | .name _ _, he, n, h => by
    obtain rfl := List.mem_singleton.1 h
    exact he
  | .signed _ e _, he, n, h => legible_used (e := e) he n h
  | .binary _ l r _, he, n, h => by
    rcases List.mem_append.1 h with h | h
    · exact legible_used he.1 n h
    · exact legible_used he.2 n h
  | .call _ args _, he, n, h => @legible_usedAll args he.2 n h

theorem legible_usedAll : ∀ {es : List Expr}, AllLegible es → ∀ n ∈ Scope.usedInAll es, Word.isName n.toList
  | [], _, _, h => absurd h List.not_mem_nil
  | _ :: _, hes, n, h => by
    rcases List.mem_append.1 h with h | h
    · exact legible_used hes.1 n h
    · exact legible_usedAll hes.2 n h

end

end Expr

/-! ## Trees of legible tokens -/

/-- Tokens of a text. -/
def AllTokensLegible (ts : List (Placed Token)) : Prop := ∀ t ∈ ts, t.value.Legible

theorem AllTokensLegible.append {ts us : List (Placed Token)} (h : AllTokensLegible (ts ++ us)) :
    AllTokensLegible ts ∧ AllTokensLegible us :=
  ⟨fun t ht => h t (List.mem_append_left _ ht), fun t ht => h t (List.mem_append_right _ ht)⟩

theorem AllTokensLegible.tail {t : Placed Token} {ts : List (Placed Token)} (h : AllTokensLegible (t :: ts)) :
    AllTokensLegible ts := fun u hu => h u (List.mem_cons_of_mem _ hu)

namespace Grammar

open AllTokensLegible

mutual

theorem Sum.legible_tree : ∀ {s : Sum}, AllTokensLegible s.yield → s.tree.Legible
  | .product p, h => Product.legible_tree (p := p) h
  | .more .., h => ⟨Sum.legible_tree h.append.1, Product.legible_tree h.append.2.tail⟩

theorem Product.legible_tree : ∀ {p : Product}, AllTokensLegible p.yield → p.tree.Legible
  | .signed u, h => Signed.legible_tree (u := u) h
  | .more .., h => ⟨Product.legible_tree h.append.1, Signed.legible_tree h.append.2.tail⟩

theorem Signed.legible_tree : ∀ {u : Signed}, AllTokensLegible u.yield → u.tree.Legible
  | .power p, h => Power.legible_tree (p := p) h
  | .sign _ _ u, h => Signed.legible_tree (u := u) h.tail

theorem Power.legible_tree : ∀ {p : Power}, AllTokensLegible p.yield → p.tree.Legible
  | .atom a, h => Atom.legible_tree (a := a) h
  | .raised .., h => ⟨Atom.legible_tree h.append.1, Signed.legible_tree h.append.2.tail⟩

theorem Atom.legible_tree : ∀ {a : Atom}, AllTokensLegible a.yield → a.tree.Legible
  | .number v place, h => h ⟨.number v, place⟩ List.mem_cons_self
  | .name n place, h => h ⟨.name n, place⟩ List.mem_cons_self
  | .bareCall n place _ _, h => ⟨h ⟨.name n, place⟩ List.mem_cons_self, trivial⟩
  | .call n place _ args _, h =>
    ⟨h ⟨.name n, place⟩ List.mem_cons_self, @Arguments.legible_trees args h.tail.tail.append.1⟩
  | .group _ inner _, h => Sum.legible_tree (s := inner) h.tail.append.1

theorem Arguments.legible_trees : ∀ {args : Arguments}, AllTokensLegible args.yield → Expr.AllLegible args.trees
  | .first s, h => ⟨Sum.legible_tree (s := s) h, trivial⟩
  | .more .., h =>
    Expr.allLegible_append (Arguments.legible_trees h.append.1) ⟨Sum.legible_tree h.append.2.tail, trivial⟩

end

end Grammar

/-- The right-hand side and the unit of an equation are legible, and so is its target. -/
structure Equation.Legible (eq : Equation) : Prop where
  target : (Token.name eq.target.name).Legible
  rhs : ∀ e, eq.rhs = some e → e.Legible
  unit : eq.unit.Legible

namespace Grammar

theorem Line.legible_tree {line : Line} (h : AllTokensLegible line.yield) : line.tree.Legible := by
  cases line with
  | declared target place colon unit =>
    exact ⟨h ⟨.name target, place⟩ List.mem_cons_self, nofun, Sum.legible_tree h.tail.tail⟩
  | defined target place equals rhs colon unit =>
    refine ⟨h ⟨.name target, place⟩ List.mem_cons_self, ?_, Sum.legible_tree h.tail.tail.append.2.tail⟩
    rintro e ⟨⟩
    exact Sum.legible_tree h.tail.tail.append.1

theorem Lines.legible_trees : ∀ {ls : Lines}, AllTokensLegible ls.yield → ∀ eq ∈ ls.trees, eq.Legible
  | .first line, h, eq, heq => by
    obtain rfl := List.mem_singleton.1 heq
    exact line.legible_tree h
  | .more before newline newlines line, h, eq, heq => by
    rcases List.mem_append.1 heq with heq | heq
    · exact Lines.legible_trees h.append.1.append.1 eq heq
    · obtain rfl := List.mem_singleton.1 heq
      exact line.legible_tree h.append.2

end Grammar

/-- **The equations of a text are legible.** -/
theorem legible_of_parse {source : String} {set : EquationSet} (h : (parse source).equations = some set) :
    ∀ eq ∈ set.equations, eq.Legible := by
  have htokens : AllTokensLegible (Token.scan source).tokens := fun _ => Token.legible_scan
  obtain ⟨d, hyield, htrees⟩ := sentence_of_parse h
  rw [← hyield] at htokens
  rw [← htrees]
  cases d with
  | blank newlines => exact fun _ heq => absurd heq List.not_mem_nil
  | lines leading body trailing => exact Grammar.Lines.legible_trees htokens.append.1.append.2

end FixedStep
