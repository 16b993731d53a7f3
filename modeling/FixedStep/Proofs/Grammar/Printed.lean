import FixedStep.Proofs.Decimal.Printing
import FixedStep.Proofs.Grammar.Legible
/-!
# Printed — a printed expression reads as itself

The text of an expression is cut into the tokens of one atom (`exists_atom`), and the tree of the atom is the
expression: every parenthesis that is printed closes a sum of its own, so nothing is left to precedence.  Only an
infinite number, which is printed as a word, comes back as a name.
-/
namespace FixedStep

/-! ## Trees up to places -/

namespace Expr

mutual

/-- An expression without its places, and with something for every number. -/
def withNumbers (f : Float → Expr) : Expr → Expr
  | number v _ => f v
  | name n _ => .name n ⟨0, 0⟩
  | signed s e _ => .signed s (e.withNumbers f) ⟨0, 0⟩
  | binary op l r _ => .binary op (l.withNumbers f) (r.withNumbers f) ⟨0, 0⟩
  | call g args _ => .call ⟨g.name, ⟨0, 0⟩⟩ (withNumbersAll f args) ⟨0, 0⟩

def withNumbersAll (f : Float → Expr) : List Expr → List Expr
  | [] => []
  | e :: es => e.withNumbers f :: withNumbersAll f es

end

mutual

/-- The numbers in an expression. -/
def numbers : Expr → List Float
  | number v _ => [v]
  | name _ _ => []
  | signed _ e _ => e.numbers
  | binary _ l r _ => l.numbers ++ r.numbers
  | call _ args _ => numbersAll args

def numbersAll : List Expr → List Float
  | [] => []
  | e :: es => e.numbers ++ numbersAll es

end

/-- **An expression up to places.** -/
def bare (e : Expr) : Expr := e.withNumbers (.number · ⟨0, 0⟩)

/-- What is read where a number was printed. -/
def rereadNumber (v : Float) : Expr := if Binary.isFinite v then .number v ⟨0, 0⟩ else .name (showNumber v) ⟨0, 0⟩

/-- What is read where an expression was printed. -/
def reread (e : Expr) : Expr := e.withNumbers rereadNumber

theorem withNumbersAll_eq_map (f : Float → Expr) : ∀ es : List Expr, withNumbersAll f es = es.map (withNumbers f)
  | [] => rfl
  | e :: es => congrArg (e.withNumbers f :: ·) (withNumbersAll_eq_map f es)

mutual

theorem withNumbers_congr {f g : Float → Expr} : ∀ {e : Expr}, (∀ v ∈ e.numbers, f v = g v) →
    e.withNumbers f = e.withNumbers g
  | .number v _, h => h v List.mem_cons_self
  | .name _ _, _ => rfl
  | .signed s e _, h => congrArg (Expr.signed s · ⟨0, 0⟩) (withNumbers_congr (e := e) h)
  | .binary op l r _, h => by
    rw [withNumbers, withNumbers, withNumbers_congr fun v hv => h v (List.mem_append_left _ hv),
      withNumbers_congr fun v hv => h v (List.mem_append_right _ hv)]
  | .call called args _, h =>
    congrArg (Expr.call ⟨called.name, ⟨0, 0⟩⟩ · ⟨0, 0⟩) (@withNumbersAll_congr f g args h)

theorem withNumbersAll_congr {f g : Float → Expr} : ∀ {es : List Expr}, (∀ v ∈ numbersAll es, f v = g v) →
    withNumbersAll f es = withNumbersAll g es
  | [], _ => rfl
  | e :: es, h => by
    rw [withNumbersAll, withNumbersAll, withNumbers_congr fun v hv => h v (List.mem_append_left _ hv),
      withNumbersAll_congr fun v hv => h v (List.mem_append_right _ hv)]

end

mutual

theorem text_withNumbers {f : Float → Expr} (hf : ∀ v, (f v).text = showNumber v) : ∀ e : Expr,
    (e.withNumbers f).text = e.text
  | .number v _ => hf v
  | .name _ _ => rfl
  | .signed s e _ => by rw [withNumbers, text, text, text_withNumbers hf e]
  | .binary op l r _ => by rw [withNumbers, text, text, text_withNumbers hf l, text_withNumbers hf r]
  | .call g args _ => by rw [withNumbers, text, text, texts_withNumbersAll hf args]

theorem texts_withNumbersAll {f : Float → Expr} (hf : ∀ v, (f v).text = showNumber v) : ∀ es : List Expr,
    texts (withNumbersAll f es) = texts es
  | [] => rfl
  | e :: es => by rw [withNumbersAll, texts, texts, text_withNumbers hf e, texts_withNumbersAll hf es]

end

theorem text_bare (e : Expr) : e.bare.text = e.text := text_withNumbers (fun _ => rfl) e

theorem text_reread (e : Expr) : e.reread.text = e.text := by
  refine text_withNumbers (fun v => ?_) e
  unfold rereadNumber
  split <;> rfl

/-- Where all numbers are finite, the expression itself is read. -/
theorem reread_eq_bare {e : Expr} (h : ∀ v ∈ e.numbers, Binary.isFinite v) : e.reread = e.bare :=
  withNumbers_congr fun v hv => if_pos (h v hv)

end Expr

/-! ## Pieces one after the other -/

namespace Token

/-- The scan of what stands at a byte of a text. -/
def scanFrom (position : Nat) (cs : List Char) : Scan :=
  ⟨(pieces 0 position cs).filterMap ofPiece?, (pieces 0 position cs).filterMap strayOf?⟩

/-- A scan with tokens before it. -/
def Scan.after (ts : List (Placed Token)) (s : Scan) : Scan := ⟨ts ++ s.tokens, s.strays⟩

theorem Scan.after_after (ts us : List (Placed Token)) (s : Scan) : (s.after us).after ts = s.after (ts ++ us) := by
  rw [after, after, after, List.append_assoc]

/-- **A token is cut off**, and the scan goes on behind it. -/
theorem scanFrom_token {c : Char} {w rest : List Char} {t : Token}
    (h : Lexeme.read c (w ++ rest) = (.token t, w.length)) (position : Nat) :
    ∃ place next, scanFrom position (c :: (w ++ rest)) = (scanFrom next rest).after [⟨t, place⟩] := by
  refine ⟨⟨position, position + c.utf8Size + byteLength w⟩, position + c.utf8Size + byteLength w, ?_⟩
  rw [scanFrom, pieces]
  simp only [h]
  rw [pieces_drop, List.take_left, List.drop_left]
  rfl

/-- Blanks in front can be left to the piece before. -/
theorem scanFrom_gaps (position : Nat) (cs : List Char) : scanFrom position cs =
    ⟨(pieces (Lexeme.runLength Lexeme.isGap cs) position cs).filterMap ofPiece?,
      (pieces (Lexeme.runLength Lexeme.isGap cs) position cs).filterMap strayOf?⟩ := by
  cases cs with
  | nil => rfl
  | cons c cs =>
    cases hc : Lexeme.isGap c with
    | false =>
      rw [Lexeme.runLength, List.takeWhile_cons_of_neg (by simp [hc])]
      rfl
    | true =>
      have hrun : Lexeme.runLength Lexeme.isGap (c :: cs) = Lexeme.runLength Lexeme.isGap cs + 1 := by
        rw [Lexeme.runLength, List.takeWhile_cons_of_pos hc]
        rfl
      rw [scanFrom, hrun, pieces, pieces]
      simp only [Lexeme.read_gap hc]
      rfl

/-- **A blank is passed over.** -/
theorem scanFrom_gap {c : Char} (hc : Lexeme.isGap c) (position : Nat) (cs : List Char) :
    scanFrom position (c :: cs) = scanFrom (position + c.utf8Size) cs := by
  rw [scanFrom_gaps _ cs, scanFrom, pieces]
  simp only [Lexeme.read_gap hc]
  rfl

end Token

/-! ## The pieces of a printed expression -/

namespace Lexeme

open Decimal (isBoundary IsSpelling)
open Kernel (Word.isName)

theorem read_name_before {c : Char} {w rest : List Char} (hw : Word.isName (c :: w))
    (hrest : ∀ d ∈ rest.head?, isBoundary d) :
    read c (w ++ rest) = (.token (.name (String.ofList (c :: w))), w.length) := by
  obtain ⟨hstart, hw⟩ := (Bool.and_eq_true _ _).mp hw
  obtain ⟨hgap, hhash, hline⟩ := not_skipped_of_isNameRest (isNameRest_of_isNameStart hstart)
  have hrun : (w ++ rest).takeWhile isNameRest = w := by
    rw [List.takeWhile_append_of_pos (List.all_eq_true.1 hw)]
    cases rest with
    | nil => rw [List.takeWhile_nil, List.append_nil]
    | cons d rest =>
      have hd := hrest d rfl
      simp only [isBoundary, Bool.and_eq_true, Bool.not_eq_true'] at hd
      rw [List.takeWhile_cons_of_neg (by simp [hd.1]), List.append_nil]
  rw [read, hgap, if_neg Bool.false_ne_true, if_neg hhash, if_neg hline, if_pos hstart]
  simp only [hrun]

theorem read_number_before {c : Char} {w rest : List Char} (hw : IsSpelling (c :: w))
    (hrest : ∀ d ∈ rest.head?, isBoundary d) :
    read c (w ++ rest) = (.token (.number (Decimal.ofSpelling (c :: w)).toFloat), w.length) := by
  obtain ⟨_, _, heq, hc⟩ := hw.first
  obtain ⟨rfl, rfl⟩ := List.cons.inj heq
  obtain ⟨hgap, hhash, hline⟩ := not_skipped_of_isNameRest (isNameRest_of_isDigit hc)
  have hrun := hw.run rest hrest
  rw [List.cons_append, List.length_cons] at hrun
  rw [read, hgap, if_neg Bool.false_ne_true, if_neg hhash, if_neg hline, not_isNameStart_of_isDigit hc,
    if_neg Bool.false_ne_true]
  simp only [hrun, List.take_left]

end Lexeme

namespace Token

open Decimal (isBoundary)
open Kernel (Word.isName)

theorem boundary_cons {c : Char} (hc : isBoundary c) (cs : List Char) : ∀ d ∈ (c :: cs).head?, isBoundary d :=
  forall_head_cons hc cs

theorem scanFrom_symbol {c : Char} {t : Token} (hc : Lexeme.symbol? c = some t) {rest : List Char}
    (hrest : c = '*' → rest.head? ≠ some '*') (position : Nat) :
    ∃ place next, scanFrom position (c :: rest) = (scanFrom next rest).after [⟨t, place⟩] :=
  scanFrom_token (w := []) (Lexeme.read_symbol hc hrest) position

theorem scanFrom_name {n : String} (hn : Word.isName n.toList) {rest : List Char}
    (hrest : ∀ c ∈ rest.head?, isBoundary c) (position : Nat) :
    ∃ place next, scanFrom position (n.toList ++ rest) = (scanFrom next rest).after [⟨.name n, place⟩] := by
  cases hcs : n.toList with
  | nil =>
    rw [hcs] at hn
    cases hn
  | cons c w =>
    rw [hcs] at hn
    have hscan := scanFrom_token (Lexeme.read_name_before hn hrest) position
    rwa [← hcs, String.ofList_toList] at hscan

/-- The digits of a number are cut off as the number. -/
theorem scanFrom_number {v : Float} (hfinite : Binary.isFinite v) (hv : (Token.number v).Legible) {rest : List Char}
    (hrest : ∀ c ∈ rest.head?, isBoundary c) (position : Nat) :
    ∃ place next, scanFrom position ((showNumber v).toList ++ rest) = (scanFrom next rest).after [⟨.number v, place⟩] := by
  obtain ⟨hnan, hsign⟩ := hv
  have htext : (showNumber v).toList = Layout.message.magnitude v := by
    rw [showNumber, Layout.render, hnan, if_neg Bool.false_ne_true]
    simp only [hsign, hfinite, Bool.false_eq_true, if_true, if_false, String.empty_append, String.toList_ofList]
    rfl
  have hspelling := Decimal.isSpelling_unsigned Layout.message
    (Binary.shortest_digits Layout.message.tie (Binary.ofFloat v))
  obtain ⟨c, w, hcs, -⟩ := hspelling.first
  have hmagnitude : Layout.message.magnitude v = c :: w := hcs
  rw [hcs] at hspelling
  have hscan := scanFrom_token (Lexeme.read_number_before hspelling hrest) position
  rw [← hmagnitude, Layout.toFloat_magnitude_of_nonneg Layout.message hfinite hsign] at hscan
  rw [htext, hmagnitude, List.cons_append]
  exact hscan

/-- An infinite number is printed as a word, which is a name. -/
theorem scanFrom_infinite {v : Float} (hfinite : ¬ Binary.isFinite v) (hv : (Token.number v).Legible) {rest : List Char}
    (hrest : ∀ c ∈ rest.head?, isBoundary c) (position : Nat) :
    ∃ place next, scanFrom position ((showNumber v).toList ++ rest) =
      (scanFrom next rest).after [⟨.name (showNumber v), place⟩] := by
  obtain ⟨hnan, hsign⟩ := hv
  have htext : showNumber v = "inf" := by
    rw [showNumber, Layout.render, hnan, if_neg Bool.false_ne_true]
    simp only [hsign, hfinite, Bool.false_eq_true, if_false]
    rfl
  exact scanFrom_name (by rw [htext]; rfl) hrest position

end Token

/-! ## The atom of an expression -/

namespace Grammar

open Decimal (isBoundary)
open Token (scanFrom scanFrom_symbol scanFrom_name scanFrom_gap boundary_cons Scan.after_after)

def operatorToken : Operator → Token
  | .add => .plus
  | .sub => .minus
  | .mul => .star
  | .div => .slash
  | .pow => .power

/-- An operator between blanks. -/
theorem scanFrom_operator (op : Operator) (position : Nat) (rest : List Char) : ∃ place next,
    scanFrom position (' ' :: (op.text.toList ++ ' ' :: rest)) = (scanFrom next rest).after [⟨operatorToken op, place⟩] := by
  have hblank : ∀ c : Char, c = '*' → (' ' :: rest).head? ≠ some '*' := fun _ _ => by simp
  have hscan : ∀ position, ∃ place next, scanFrom position (op.text.toList ++ ' ' :: rest) =
      (scanFrom next (' ' :: rest)).after [⟨operatorToken op, place⟩] := by
    cases op with
    | add => exact scanFrom_symbol (c := '+') rfl (hblank _)
    | sub => exact scanFrom_symbol (c := '-') rfl (hblank _)
    | mul => exact scanFrom_symbol (c := '*') rfl (hblank _)
    | div => exact scanFrom_symbol (c := '/') rfl (hblank _)
    | pow => exact Token.scanFrom_token (c := '*') (w := ['*']) (t := .power) rfl
  obtain ⟨place, next, h⟩ := hscan (position + ' '.utf8Size)
  exact ⟨place, next + ' '.utf8Size, by rw [scanFrom_gap rfl, h, scanFrom_gap rfl]⟩

/-- The sum that an operation on two atoms is. -/
def Sum.operation (op : Operator) (place : Span) (l r : Atom) : Sum :=
  let left : Signed := .power (.atom l)
  let right : Signed := .power (.atom r)
  match op with
  | .add => .more (.product (.signed left)) .add place (.signed right)
  | .sub => .more (.product (.signed left)) .sub place (.signed right)
  | .mul => .product (.more (.signed left) .mul place right)
  | .div => .product (.more (.signed left) .div place right)
  | .pow => .product (.signed (.power (.raised l place right)))

theorem Sum.yield_operation (op : Operator) (place : Span) (l r : Atom) :
    (Sum.operation op place l r).yield = l.yield ++ ⟨operatorToken op, place⟩ :: r.yield := by
  cases op <;> rfl

theorem Sum.bare_operation (op : Operator) (place : Span) (l r : Atom) :
    (Sum.operation op place l r).tree.bare = .binary op l.tree.bare r.tree.bare ⟨0, 0⟩ := by
  cases op <;> rfl

/-- A sum in front of a row of arguments. -/
def Arguments.prepend (s : Sum) (comma : Span) : Arguments → Arguments
  | .first s' => .more (.first s) comma s'
  | .more before comma' s' => .more (before.prepend s comma) comma' s'

theorem Arguments.yield_prepend (s : Sum) (comma : Span) : ∀ args : Arguments,
    (args.prepend s comma).yield = s.yield ++ ⟨.comma, comma⟩ :: args.yield
  | .first _ => rfl
  | .more before comma' s' => by
    rw [prepend, yield, Arguments.yield_prepend s comma before, yield, List.append_assoc, List.cons_append]

theorem Arguments.trees_prepend (s : Sum) (comma : Span) : ∀ args : Arguments,
    (args.prepend s comma).trees = s.tree :: args.trees
  | .first _ => rfl
  | .more before comma' s' => by
    rw [prepend, trees, Arguments.trees_prepend s comma before, trees, List.cons_append]

theorem scanFrom_sign (s : Sign) (position : Nat) (rest : List Char) : ∃ place next,
    scanFrom position (s.text.toList ++ rest) = (scanFrom next rest).after [⟨signToken s, place⟩] := by
  cases s with
  | neg => exact scanFrom_symbol (c := '-') rfl nofun position
  | plus => exact scanFrom_symbol (c := '+') rfl nofun position

/-- The sum of one atom. -/
def Atom.sum (a : Atom) : Sum := .product (.signed (.power (.atom a)))

mutual

/-- **A printed expression is cut into the tokens of one atom**, whatever follows it after a boundary. -/
theorem exists_atom : ∀ {e : Expr}, e.Legible → ∀ (position : Nat) {rest : List Char},
    (∀ c ∈ rest.head?, isBoundary c) → ∃ (a : Atom) (next : Nat),
      scanFrom position (e.text.toList ++ rest) = (scanFrom next rest).after a.yield ∧ a.tree.bare = e.reread
  | .number v _, he, position, rest, hrest => by
    by_cases hfinite : Binary.isFinite v
    · obtain ⟨place, next, h⟩ := Token.scanFrom_number hfinite he hrest position
      exact ⟨.number v place, next, h, (if_pos hfinite).symm⟩
    · obtain ⟨place, next, h⟩ := Token.scanFrom_infinite hfinite he hrest position
      exact ⟨.name (showNumber v) place, next, h, (if_neg hfinite).symm⟩
  | .name n _, he, position, rest, hrest => by
    obtain ⟨place, next, h⟩ := scanFrom_name he hrest position
    exact ⟨.name n place, next, h, rfl⟩
  | .signed s e sp, he, position, rest, hrest => by
    have htext : (Expr.signed s e sp).text.toList ++ rest =
        '(' :: (s.text.toList ++ (e.text.toList ++ ')' :: rest)) := by simp [Expr.text]
    obtain ⟨opening, p₁, h₁⟩ := scanFrom_symbol (c := '(') rfl nofun position
    obtain ⟨place, p₂, h₂⟩ := scanFrom_sign s p₁ (e.text.toList ++ ')' :: rest)
    obtain ⟨a, p₃, h₃, htree⟩ := exists_atom (e := e) he p₂ (boundary_cons (c := ')') rfl rest)
    obtain ⟨closing, p₄, h₄⟩ := scanFrom_symbol (c := ')') rfl nofun p₃
    refine ⟨.group opening (.product (.signed (.sign s place (.power (.atom a))))) closing, p₄, ?_, ?_⟩
    · rw [htext, h₁, h₂, h₃, h₄, Scan.after_after, Scan.after_after, Scan.after_after]
      rfl
    · exact congrArg (Expr.signed s · ⟨0, 0⟩) htree
  | .binary op l r sp, ⟨hl, hr⟩, position, rest, hrest => by
    have htext : (Expr.binary op l r sp).text.toList ++ rest =
        '(' :: (l.text.toList ++ ' ' :: (op.text.toList ++ ' ' :: (r.text.toList ++ ')' :: rest))) := by simp [Expr.text]
    obtain ⟨opening, p₁, h₁⟩ := scanFrom_symbol (c := '(') rfl nofun position
    obtain ⟨left, p₂, h₂, hleft⟩ := exists_atom hl p₁
      (boundary_cons (c := ' ') rfl (op.text.toList ++ ' ' :: (r.text.toList ++ ')' :: rest)))
    obtain ⟨place, p₃, h₃⟩ := scanFrom_operator op p₂ (r.text.toList ++ ')' :: rest)
    obtain ⟨right, p₄, h₄, hright⟩ := exists_atom hr p₃ (boundary_cons (c := ')') rfl rest)
    obtain ⟨closing, p₅, h₅⟩ := scanFrom_symbol (c := ')') rfl nofun p₄
    refine ⟨.group opening (.operation op place left right) closing, p₅, ?_, ?_⟩
    · rw [htext, h₁, h₂, h₃, h₄, h₅]
      simp only [Scan.after_after, Atom.yield, Sum.yield_operation, List.append_assoc, List.cons_append, List.nil_append]
    · rw [Atom.tree, Sum.bare_operation, hleft, hright]
      rfl
  | .call f [] sp, ⟨hf, _⟩, position, rest, hrest => by
    have htext : (Expr.call f [] sp).text.toList ++ rest = f.name.toList ++ '(' :: ')' :: rest := by
      simp [Expr.text, Expr.texts]
    obtain ⟨place, p₁, h₁⟩ := scanFrom_name hf (boundary_cons (c := '(') rfl (')' :: rest)) position
    obtain ⟨opening, p₂, h₂⟩ := scanFrom_symbol (c := '(') rfl nofun p₁
    obtain ⟨closing, p₃, h₃⟩ := scanFrom_symbol (c := ')') rfl nofun p₂
    refine ⟨.bareCall f.name place opening closing, p₃, ?_, rfl⟩
    rw [htext, h₁, h₂, h₃, Scan.after_after, Scan.after_after]
    rfl
  | .call f (e :: es) sp, ⟨hf, hargs⟩, position, rest, hrest => by
    have htext : (Expr.call f (e :: es) sp).text.toList ++ rest =
        f.name.toList ++ '(' :: ((", ".intercalate (Expr.texts (e :: es))).toList ++ ')' :: rest) := by simp [Expr.text]
    obtain ⟨place, p₁, h₁⟩ := scanFrom_name hf
      (boundary_cons (c := '(') rfl ((", ".intercalate (Expr.texts (e :: es))).toList ++ ')' :: rest)) position
    obtain ⟨opening, p₂, h₂⟩ := scanFrom_symbol (c := '(') rfl nofun p₁
    obtain ⟨args, p₃, h₃, htrees⟩ := exists_arguments (List.cons_ne_nil e es) hargs p₂ (boundary_cons (c := ')') rfl rest)
    obtain ⟨closing, p₄, h₄⟩ := scanFrom_symbol (c := ')') rfl nofun p₃
    refine ⟨.call f.name place opening args closing, p₄, ?_, ?_⟩
    · rw [htext, h₁, h₂, h₃, h₄]
      simp only [Scan.after_after, Atom.yield, List.cons_append, List.nil_append]
    · rw [Atom.tree, Expr.bare, Expr.reread, Expr.withNumbers, Expr.withNumbers, Expr.withNumbersAll_eq_map,
        Expr.withNumbersAll_eq_map]
      exact congrArg (Expr.call ⟨f.name, ⟨0, 0⟩⟩ · ⟨0, 0⟩) htrees

theorem exists_arguments : ∀ {es : List Expr}, es ≠ [] → Expr.AllLegible es → ∀ (position : Nat) {rest : List Char},
    (∀ c ∈ rest.head?, isBoundary c) → ∃ (args : Arguments) (next : Nat),
      scanFrom position ((", ".intercalate (Expr.texts es)).toList ++ rest) = (scanFrom next rest).after args.yield ∧
        args.trees.map Expr.bare = es.map Expr.reread
  | [], hne, _, _, _, _ => absurd rfl hne
  | [e], _, ⟨he, _⟩, position, rest, hrest => by
    have htext : (", ".intercalate (Expr.texts [e])).toList = e.text.toList := by simp [Expr.texts]
    obtain ⟨a, next, h, htree⟩ := exists_atom he position hrest
    exact ⟨.first a.sum, next, by rw [htext, h]; rfl, congrArg (fun e => [e]) htree⟩
  | e :: e' :: es, _, ⟨he, hes⟩, position, rest, hrest => by
    have htext : (", ".intercalate (Expr.texts (e :: e' :: es))).toList ++ rest =
        e.text.toList ++ ',' :: ' ' :: ((", ".intercalate (Expr.texts (e' :: es))).toList ++ rest) := by
      rw [Expr.texts, Expr.texts, String.intercalate_cons_cons]
      simp
    obtain ⟨a, p₁, h₁, htree⟩ := exists_atom he position
      (boundary_cons (c := ',') rfl (' ' :: ((", ".intercalate (Expr.texts (e' :: es))).toList ++ rest)))
    obtain ⟨comma, p₂, h₂⟩ := scanFrom_symbol (c := ',') rfl nofun p₁
    obtain ⟨args, p₃, h₃, htrees⟩ := exists_arguments (List.cons_ne_nil e' es) hes (p₂ + ' '.utf8Size) hrest
    refine ⟨args.prepend a.sum comma, p₃, ?_, ?_⟩
    · rw [htext, h₁, h₂, scanFrom_gap rfl, h₃, Scan.after_after, Scan.after_after, Arguments.yield_prepend,
        List.append_assoc]
      rfl
    · rw [Arguments.trees_prepend, List.map_cons, List.map_cons, htrees]
      exact congrArg (· :: (e' :: es).map Expr.reread) htree

end

end Grammar

/-! ## The text of an expression as a right-hand side -/

/-- An expression as the right-hand side of an equation for `z`, a plain number. -/
def Expr.assigned (e : Expr) : String := "z = " ++ e.text ++ " : 1"

open Grammar Token in
/-- The tokens of that equation are those of one line, with the atom of the expression on the right. -/
theorem exists_line {e : Expr} (he : e.Legible) : ∃ (place equals colon : Span) (a unit : Atom),
    scan e.assigned = ⟨(Line.defined "z" place equals a.sum colon unit.sum).yield, []⟩ ∧ a.tree.bare = e.reread := by
  have hone : (showNumber 1.0).toList = ['1'] := by decide +kernel
  have hlegible : (Expr.number 1.0 ⟨0, 0⟩).Legible := ⟨by decide +kernel, by decide +kernel⟩
  have htext : e.assigned.toList = "z".toList ++ ' ' :: '=' :: ' ' :: (e.text.toList ++
      ' ' :: ':' :: ' ' :: ((Expr.number 1.0 ⟨0, 0⟩).text.toList ++ [])) := by
    simp [Expr.assigned, Expr.text, hone]
  have hend : ∀ c ∈ ([] : List Char).head?, Decimal.isBoundary c := fun _ h => by cases h
  obtain ⟨place, p₁, h₁⟩ := scanFrom_name (n := "z") rfl (boundary_cons (c := ' ') rfl
    ('=' :: ' ' :: (e.text.toList ++ ' ' :: ':' :: ' ' :: ((Expr.number 1.0 ⟨0, 0⟩).text.toList ++ [])))) 0
  obtain ⟨equals, p₂, h₂⟩ := scanFrom_symbol (c := '=') rfl nofun (p₁ + ' '.utf8Size)
  obtain ⟨a, p₃, h₃, htree⟩ := exists_atom he (p₂ + ' '.utf8Size) (boundary_cons (c := ' ') rfl
    (':' :: ' ' :: ((Expr.number 1.0 ⟨0, 0⟩).text.toList ++ [])))
  obtain ⟨colon, p₄, h₄⟩ := scanFrom_symbol (c := ':') rfl nofun (p₃ + ' '.utf8Size)
  obtain ⟨unit, p₅, h₅, -⟩ := exists_atom hlegible (p₄ + ' '.utf8Size) hend
  refine ⟨place, equals, colon, a, unit, ?_, htree⟩
  have hnil : scanFrom p₅ [] = ⟨[], []⟩ := rfl
  rw [show scan e.assigned = scanFrom 0 e.assigned.toList from rfl, htext, h₁, scanFrom_gap rfl, h₂, scanFrom_gap rfl,
    h₃, scanFrom_gap rfl, h₄, scanFrom_gap rfl, h₅, hnil]
  simp only [Scan.after, Line.yield, Atom.sum, Sum.yield, Product.yield, Signed.yield, Power.yield, List.cons_append,
    List.nil_append, List.append_nil]

/-- **A legible expression is read again from its text.** -/
theorem parse_assigned {e : Expr} (he : e.Legible) : (parse e.assigned).issues = [] ∧ ∃ set eq e',
    (parse e.assigned).equations = some set ∧ set.equations = [eq] ∧ eq.target.name = "z" ∧ eq.rhs = some e' ∧
      e'.bare = e.reread := by
  obtain ⟨place, equals, colon, a, unit, hscan, htree⟩ := exists_line he
  let d : Grammar.Sentence := .lines [] (.first (.defined "z" place equals a.sum colon unit.sum)) []
  have hstrays : (Token.scan e.assigned).strays = [] := by rw [hscan]
  have hyield : d.yield = (Token.scan e.assigned).tokens := by
    rw [hscan]
    exact List.append_nil _
  rw [parse_of_yield hstrays hyield]
  exact ⟨rfl, _, _, a.tree, rfl, rfl, rfl, rfl, htree⟩

theorem equations_of_issues {source : String} (h : (parse source).issues = []) :
    ∃ set, (parse source).equations = some set := by
  simp only [parse] at h ⊢
  split at h
  · exact ⟨_, rfl⟩
  · exact absurd h (by simp)

/-- **Printing and reading are inverse.**  The text of any right-hand side or unit of a text without issues is itself a
right-hand side without issues.  It reads as an expression with the same text, which is the expression itself up to
places where all numbers in it are finite. -/
theorem parse_printed {source : String} (h : (parse source).issues = []) : ∃ set, (parse source).equations = some set ∧
    ∀ eq ∈ set.equations, ∀ e, eq.rhs = some e ∨ eq.unit = e →
      (parse e.assigned).issues = [] ∧ ∃ set' eq' e', (parse e.assigned).equations = some set' ∧ set'.equations = [eq'] ∧
        eq'.target.name = "z" ∧ eq'.rhs = some e' ∧ e'.text = e.text ∧
          ((∀ v ∈ e.numbers, Binary.isFinite v) → e'.bare = e.bare) := by
  obtain ⟨set, hset⟩ := equations_of_issues h
  refine ⟨set, hset, fun eq heq e he => ?_⟩
  have hlegible : e.Legible := by
    have hequation := legible_of_parse hset eq heq
    rcases he with hrhs | rfl
    · exact hequation.rhs e hrhs
    · exact hequation.unit
  obtain ⟨hissues, set', eq', e', hset', hone, htarget, hrhs, htree⟩ := parse_assigned hlegible
  refine ⟨hissues, set', eq', e', hset', hone, htarget, hrhs, ?_, fun hfinite => ?_⟩
  · rw [← Expr.text_bare e', htree, Expr.text_reread]
  · rw [htree, Expr.reread_eq_bare hfinite]

/-- `-x ** -max(a, 2.50, g()) - 1e21`, after `y = ` -/
def nestedSigns : Expr :=
  .binary .sub
    (.signed .neg
      (.binary .pow (.name "x" ⟨5, 6⟩)
        (.signed .neg
          (.call ⟨"max", ⟨11, 14⟩⟩ [.name "a" ⟨15, 16⟩, .number 2.5 ⟨18, 22⟩, .call ⟨"g", ⟨24, 25⟩⟩ [] ⟨24, 27⟩] ⟨11, 28⟩)
          ⟨10, 28⟩)
        ⟨5, 28⟩)
      ⟨4, 28⟩)
    (.number 1e21 ⟨31, 35⟩) ⟨4, 35⟩

theorem parse_printed_nestedSigns : (parse "y = -x ** -max(a, 2.50, g()) - 1e21 : volt").issues = [] ∧
    (∀ v ∈ nestedSigns.numbers, Binary.isFinite v) ∧
    nestedSigns.assigned = "z = ((-(x ** (-max(a, 2.5, g())))) - 1000000000000000000000) : 1" ∧
    (parse nestedSigns.assigned).issues = [] ∧ ∃ set eq e, (parse nestedSigns.assigned).equations = some set ∧
      set.equations = [eq] ∧ eq.rhs = some e ∧ e.bare = nestedSigns.bare := by
  have hscan : Token.scan "y = -x ** -max(a, 2.50, g()) - 1e21 : volt" =
      ⟨[⟨.name "y", ⟨0, 1⟩⟩, ⟨.equals, ⟨2, 3⟩⟩, ⟨.minus, ⟨4, 5⟩⟩, ⟨.name "x", ⟨5, 6⟩⟩, ⟨.power, ⟨7, 9⟩⟩, ⟨.minus, ⟨10, 11⟩⟩,
        ⟨.name "max", ⟨11, 14⟩⟩, ⟨.openParen, ⟨14, 15⟩⟩, ⟨.name "a", ⟨15, 16⟩⟩, ⟨.comma, ⟨16, 17⟩⟩, ⟨.number 2.5, ⟨18, 22⟩⟩,
        ⟨.comma, ⟨22, 23⟩⟩, ⟨.name "g", ⟨24, 25⟩⟩, ⟨.openParen, ⟨25, 26⟩⟩, ⟨.closeParen, ⟨26, 27⟩⟩,
        ⟨.closeParen, ⟨27, 28⟩⟩, ⟨.minus, ⟨29, 30⟩⟩, ⟨.number 1e21, ⟨31, 35⟩⟩, ⟨.colon, ⟨36, 37⟩⟩,
        ⟨.name "volt", ⟨38, 42⟩⟩], []⟩ := by decide +kernel
  have hparse : parse "y = -x ** -max(a, 2.50, g()) - 1e21 : volt" =
      ⟨some ⟨[⟨⟨"y", ⟨0, 1⟩⟩, some nestedSigns, .name "volt" ⟨38, 42⟩, ⟨0, 42⟩⟩], ⟨0, 42⟩⟩, []⟩ := by
    simp only [parse, hscan, Parsed.ofTokens, Parser.run_equations]
    rfl
  have hissues : (parse "y = -x ** -max(a, 2.50, g()) - 1e21 : volt").issues = [] := by rw [hparse]
  have hfinite : ∀ v ∈ nestedSigns.numbers, Binary.isFinite v := by decide +kernel
  obtain ⟨set, hset', hread⟩ := parse_printed hissues
  rw [hparse] at hset'
  obtain rfl := Option.some.inj hset'
  obtain ⟨hagain, set', eq', e', hequations, hone, -, hrhs, -, htree⟩ :=
    hread _ List.mem_cons_self nestedSigns (.inl rfl)
  exact ⟨hissues, hfinite, by decide +kernel, hagain, set', eq', e', hequations, hone, hrhs, htree hfinite⟩

end FixedStep
