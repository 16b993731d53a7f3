import FixedStep.Proofs.Kernel.Literal
import FixedStep.Proofs.Kernel.Term
import FixedStep.Proofs.Kernel.Uses
/-!
# Reading — a generated statement reads as the update it was made from

A printed expression is cut into the words of its tree (`cut_expression`), and those are read as its term, whatever is
open on the left (`steps_words`): the parentheses leave nothing for precedence to decide.
-/
namespace FixedStep
namespace Kernel

/-! ## Terms and words of a tree -/

/-- The word of a finite magnitude, or the name of an infinite one. -/
def magnitudeWord (v : Float) : Word :=
  if Binary.isFinite v then .number (String.ofList (magnitudeText v)) else .name "INFINITY"

def magnitudeTerm (v : Float) : Term :=
  if Binary.isFinite v then .number (String.ofList (magnitudeText v)) else .constant "INFINITY"

def literalWords (v : Float) : List Word :=
  if v.isNaN then [.name "NAN"]
  else if Binary.isNegative v then [.symbol '(', .symbol '-', magnitudeWord v, .symbol ')'] else [magnitudeWord v]

def literalTerm (v : Float) : Term :=
  if v.isNaN then .constant "NAN"
  else if Binary.isNegative v then .neg (magnitudeTerm v) else magnitudeTerm v

def operatorChar : Operator → Char
  | .add => '+'
  | .sub => '-'
  | .mul => '*'
  | .div => '/'
  | .pow => '^'

mutual

/-- The words of an expression, its functions under the names given to them. -/
def words (rename : String → String) (s : Scope) : Node → List Word
  | .const v => literalWords v
  | .state slot => [.name (arrayName (s.nameOf slot)), .symbol '[', .name "_i", .symbol ']']
  | .clock reading => [.name (clockName reading)]
  | .neg n => .symbol '(' :: .symbol '-' :: (words rename s n ++ [.symbol ')'])
  | .binary .pow l r =>
    .name "pow" :: .symbol '(' :: (words rename s l ++ .symbol ',' :: (words rename s r ++ [.symbol ')']))
  | .binary op l r =>
    .symbol '(' :: (words rename s l ++ .symbol (operatorChar op) :: (words rename s r ++ [.symbol ')']))
  | .call f args => .name (rename f.name) :: .symbol '(' :: (argumentWords rename s args ++ [.symbol ')'])

def argumentWords (rename : String → String) (s : Scope) : List Node → List Word
  | [] => []
  | [n] => words rename s n
  | n :: n' :: ns => words rename s n ++ .symbol ',' :: argumentWords rename s (n' :: ns)

end

mutual

/-- The term of an expression, its functions under the names given to them. -/
def term (rename : String → String) (s : Scope) : Node → Term
  | .const v => literalTerm v
  | .state slot => .element (arrayName (s.nameOf slot))
  | .clock reading => .constant (clockName reading)
  | .neg n => .neg (term rename s n)
  | .binary .pow l r => .call "pow" [term rename s l, term rename s r]
  | .binary op l r => .binary op (term rename s l) (term rename s r)
  | .call f args => .call (rename f.name) (terms rename s args)

def terms (rename : String → String) (s : Scope) : List Node → List Term
  | [] => []
  | n :: ns => term rename s n :: terms rename s ns

end

theorem words_binary {op : Operator} (hop : op ≠ .pow) (rename : String → String) (s : Scope) (l r : Node) :
    words rename s (.binary op l r) =
      .symbol '(' :: (words rename s l ++ .symbol (operatorChar op) :: (words rename s r ++ [.symbol ')'])) := by
  cases op <;> first | rfl | exact absurd rfl hop

theorem term_binary {op : Operator} (hop : op ≠ .pow) (rename : String → String) (s : Scope) (l r : Node) :
    term rename s (.binary op l r) = .binary op (term rename s l) (term rename s r) := by
  cases op <;> first | rfl | exact absurd rfl hop

/-! ## Properties of what a tree is made of -/

mutual

def constants : Node → List Float
  | .const v => [v]
  | .state _ => []
  | .clock _ => []
  | .neg n => constants n
  | .binary _ l r => constants l ++ constants r
  | .call _ args => constantsAll args

def constantsAll : List Node → List Float
  | [] => []
  | n :: ns => constants n ++ constantsAll ns

end

/-- What holds of every variable that a tree reads, every function that it calls and every number in it. -/
structure Throughout (P : Nat → Prop) (Q : Function → Prop) (R : Float → Prop) (n : Node) : Prop where
  slots : ∀ slot ∈ n.slots, P slot
  functions : ∀ f ∈ calls n, Q f
  numbers : ∀ v ∈ constants n, R v

structure ThroughoutAll (P : Nat → Prop) (Q : Function → Prop) (R : Float → Prop) (ns : List Node) : Prop where
  slots : ∀ slot ∈ Node.slotsAll ns, P slot
  functions : ∀ f ∈ callsAll ns, Q f
  numbers : ∀ v ∈ constantsAll ns, R v

section
variable {P : Nat → Prop} {Q : Function → Prop} {R : Float → Prop}

theorem Throughout.neg {n : Node} (h : Throughout P Q R (.neg n)) : Throughout P Q R n := ⟨h.slots, h.functions, h.numbers⟩

theorem Throughout.binary {op : Operator} {l r : Node} (h : Throughout P Q R (.binary op l r)) :
    Throughout P Q R l ∧ Throughout P Q R r :=
  ⟨⟨fun slot hslot => h.slots slot (List.mem_append_left _ hslot),
      fun f hf => h.functions f (List.mem_append_left _ hf), fun v hv => h.numbers v (List.mem_append_left _ hv)⟩,
    ⟨fun slot hslot => h.slots slot (List.mem_append_right _ hslot),
      fun f hf => h.functions f (List.mem_append_right _ hf), fun v hv => h.numbers v (List.mem_append_right _ hv)⟩⟩

theorem Throughout.call {f : Function} {args : List Node} (h : Throughout P Q R (.call f args)) :
    Q f ∧ ThroughoutAll P Q R args :=
  ⟨h.functions f List.mem_cons_self, h.slots, fun g hg => h.functions g (List.mem_cons_of_mem _ hg), h.numbers⟩

theorem ThroughoutAll.cons {n : Node} {ns : List Node} (h : ThroughoutAll P Q R (n :: ns)) :
    Throughout P Q R n ∧ ThroughoutAll P Q R ns :=
  ⟨⟨fun slot hslot => h.slots slot (List.mem_append_left _ hslot),
      fun f hf => h.functions f (List.mem_append_left _ hf), fun v hv => h.numbers v (List.mem_append_left _ hv)⟩,
    ⟨fun slot hslot => h.slots slot (List.mem_append_right _ hslot),
      fun f hf => h.functions f (List.mem_append_right _ hf), fun v hv => h.numbers v (List.mem_append_right _ hv)⟩⟩

end

/-! ## From text to words -/

/-- The names in the text of a tree are names. -/
abbrev Named (s : Scope) (n : Node) : Prop :=
  Throughout (fun slot => (s.nameOf slot).toList.all Lexeme.isNameRest) (fun f => Word.isName f.name.toList)
    (fun _ => True) n

abbrev AllNamed (s : Scope) (ns : List Node) : Prop :=
  ThroughoutAll (fun slot => (s.nameOf slot).toList.all Lexeme.isNameRest) (fun f => Word.isName f.name.toList)
    (fun _ => True) ns

namespace Word

/-- A character before which every word ends. -/
def ends (c : Char) : Bool := !Lexeme.isNameRest c && c != '.' && c != '+' && c != '-'

theorem cut_name_before {w cs : List Char} (hw : isName w) (hcs : ∀ c ∈ cs.head?, ends c) :
    cut .nothing (w ++ cs) = (cut .nothing cs).map (.name (String.ofList w) :: ·) := by
  refine cut_name hw fun c hc => ?_
  have hends := hcs c hc
  simp only [ends, Bool.and_eq_true, Bool.not_eq_true'] at hends
  exact hends.1.1.1

theorem cut_number_before {w cs : List Char} (hw : isNumber w) (hcs : ∀ c ∈ cs.head?, ends c) :
    cut .nothing (w ++ cs) = (cut .nothing cs).map (.number (String.ofList w) :: ·) := by
  refine cut_number hw fun c hc => ?_
  have hends := hcs c hc
  simp only [ends, Bool.and_eq_true, Bool.not_eq_true', bne_iff_ne, ne_eq] at hends
  exact ⟨hends.1.1.1, hends.1.1.2, hends.1.2, hends.2⟩

theorem not_isOperator_of_isNameRest {c : Char} (h : Lexeme.isNameRest c) : isOperator c = false := by
  refine Bool.eq_false_iff.2 fun hc => ?_
  simp only [isOperator, List.contains_cons, List.contains_nil, Bool.or_eq_true, beq_iff_eq, Bool.or_false] at hc
  rcases hc with rfl | rfl | rfl | rfl | rfl <;> cases h

end Word

theorem isName_arrayName {name : String} (h : name.toList.all Lexeme.isNameRest) :
    Word.isName (arrayName name).toList := by
  rw [arrayName, String.toList_append]
  exact h

/-- What is printed for a magnitude: its digits, or a name. -/
def magnitudeChars (v : Float) : List Char := if Binary.isFinite v then magnitudeText v else "INFINITY".toList

theorem toList_literal (v : Float) : (literal v).toList =
    if v.isNaN then "NAN".toList
    else if Binary.isNegative v then '(' :: '-' :: (magnitudeChars v ++ [')']) else magnitudeChars v := by
  unfold literal Layout.render magnitudeChars magnitudeText
  cases v.isNaN with
  | true => rfl
  | false =>
    cases Binary.isNegative v <;> cases Binary.isFinite v <;> simp [literalLayout]

theorem cut_magnitude (v : Float) {cs : List Char} (hcs : ∀ c ∈ cs.head?, Word.ends c) :
    Word.cut .nothing (magnitudeChars v ++ cs) = (Word.cut .nothing cs).map (magnitudeWord v :: ·) := by
  unfold magnitudeChars magnitudeWord
  split
  · exact Word.cut_number_before (isNumber_magnitudeText v) hcs
  · exact Word.cut_name_before rfl hcs

theorem magnitudeChars_head (v : Float) : ∃ c cs, magnitudeChars v = c :: cs ∧ Word.isOperator c = false := by
  unfold magnitudeChars
  split
  · have hnumber := isNumber_magnitudeText v
    cases hcs : magnitudeText v with
    | nil =>
      rw [hcs] at hnumber
      cases hnumber
    | cons c cs =>
      rw [hcs] at hnumber
      simp only [Word.isNumber, Bool.and_eq_true] at hnumber
      exact ⟨c, cs, rfl, Word.not_isOperator_of_isNameRest (Lexeme.isNameRest_of_isDigit hnumber.1.1)⟩
  · exact ⟨_, _, rfl, rfl⟩

theorem cut_literal (v : Float) {cs : List Char} (hcs : ∀ c ∈ cs.head?, Word.ends c) :
    Word.cut .nothing ((literal v).toList ++ cs) = (Word.cut .nothing cs).map (literalWords v ++ ·) := by
  rw [toList_literal, literalWords]
  split
  · exact Word.cut_name_before rfl hcs
  · split
    · obtain ⟨c, rest, hchars, hoperator⟩ := magnitudeChars_head v
      have hclose : ∀ c ∈ (')' :: cs).head?, Word.ends c := forall_head_cons (by rfl) cs
      have hhead : ∀ d ∈ (magnitudeChars v ++ ')' :: cs).head?, Word.isOperator d = false := by
        rw [hchars]
        exact forall_head_cons hoperator _
      rw [List.cons_append, List.cons_append, List.append_assoc, List.singleton_append, Word.cut_mark rfl,
        Word.cut_operator rfl hhead, cut_magnitude v hclose, Word.cut_mark rfl]
      simp only [Option.map_map]
      rfl
    · exact cut_magnitude v hcs

/-- An expression does not begin with an operator. -/
theorem expression_head {s : Scope} : ∀ {n : Node}, Named s n →
    ∃ c, (expression s n).toList.head? = some c ∧ Word.isOperator c = false
  | .const v, _ => by
    obtain ⟨c, cs, hchars, hoperator⟩ := magnitudeChars_head v
    rw [expression, toList_literal]
    split
    · exact ⟨_, rfl, rfl⟩
    · split
      · exact ⟨_, rfl, rfl⟩
      · exact ⟨c, by rw [hchars, List.head?_cons], hoperator⟩
  | .state slot, _ => ⟨'_', by simp [expression, element, arrayName], rfl⟩
  | .clock reading, _ => ⟨'_', by cases reading <;> simp [expression, clockName], rfl⟩
  | .neg n, _ => ⟨'(', by simp [expression], rfl⟩
  | .binary .pow l r, _ => ⟨'p', by simp [expression], rfl⟩
  | .binary .add l r, _ => ⟨'(', by simp [expression], rfl⟩
  | .binary .sub l r, _ => ⟨'(', by simp [expression], rfl⟩
  | .binary .mul l r, _ => ⟨'(', by simp [expression], rfl⟩
  | .binary .div l r, _ => ⟨'(', by simp [expression], rfl⟩
  | .call f args, h => by
    have hname := h.call.1
    cases hchars : f.name.toList with
    | nil =>
      rw [hchars] at hname
      cases hname
    | cons c cs =>
      rw [hchars] at hname
      have hstart : Lexeme.isNameStart c := ((Bool.and_eq_true _ _).mp hname).1
      refine ⟨c, ?_, Word.not_isOperator_of_isNameRest (Lexeme.isNameRest_of_isNameStart hstart)⟩
      simp [expression, hchars]

theorem ends_cons {c : Char} (h : Word.ends c) (cs : List Char) : ∀ d ∈ (c :: cs).head?, Word.ends d :=
  forall_head_cons h cs

theorem cut_operatorChar : ∀ {op : Operator}, op ≠ .pow → ∀ cs : List Char,
    Word.cut .nothing (' ' :: (op.text.toList ++ ' ' :: cs)) =
      (Word.cut .nothing cs).map (.symbol (operatorChar op) :: ·) := by
  intro op hop cs
  have hblank : ∀ d ∈ (' ' :: cs).head?, Word.isOperator d = false := forall_head_cons (by rfl) cs
  rw [Word.cut_blank]
  cases op with
  | pow => exact absurd rfl hop
  | add => exact (Word.cut_operator rfl hblank).trans (by rw [Word.cut_blank]; rfl)
  | sub => exact (Word.cut_operator rfl hblank).trans (by rw [Word.cut_blank]; rfl)
  | mul => exact (Word.cut_operator rfl hblank).trans (by rw [Word.cut_blank]; rfl)
  | div => exact (Word.cut_operator rfl hblank).trans (by rw [Word.cut_blank]; rfl)

mutual

/-- **A printed expression is cut into its words.** -/
theorem cut_expression {s : Scope} : ∀ {n : Node}, Named s n → ∀ {cs : List Char}, (∀ c ∈ cs.head?, Word.ends c) →
    Word.cut .nothing ((expression s n).toList ++ cs) = (Word.cut .nothing cs).map (words id s n ++ ·)
  | .const v, _, cs, hcs => cut_literal v hcs
  | .state slot, h, cs, hcs => by
    have hname := isName_arrayName (h.slots slot List.mem_cons_self)
    have htext : (expression s (.state slot)).toList ++ cs =
        (arrayName (s.nameOf slot)).toList ++ '[' :: ("_i".toList ++ ']' :: cs) := by
      simp [expression, element]
    rw [htext, Word.cut_name_before hname (ends_cons rfl _), Word.cut_mark rfl,
      Word.cut_name_before rfl (ends_cons rfl _), Word.cut_mark rfl]
    simp only [Option.map_map, String.ofList_toList]
    rfl
  | .clock reading, _, cs, hcs => by
    have hname : Word.isName (clockName reading).toList := by cases reading <;> rfl
    rw [expression, Word.cut_name_before hname hcs, String.ofList_toList]
    rfl
  | .neg n, h, cs, hcs => by
    have hn : Named s n := h.neg
    obtain ⟨c, hc, hoperator⟩ := expression_head hn
    have htext : (expression s (.neg n)).toList ++ cs = '(' :: '-' :: ((expression s n).toList ++ ')' :: cs) := by
      simp [expression]
    -- the minus stays a word of its own, since no expression begins with a character that operators go on with
    have hhead : ∀ d ∈ ((expression s n).toList ++ ')' :: cs).head?, Word.isOperator d = false := fun d hd => by
      rw [List.head?_append, hc] at hd
      obtain rfl := Option.some.inj hd
      exact hoperator
    rw [htext, Word.cut_mark rfl, Word.cut_operator rfl hhead, cut_expression hn (ends_cons rfl _), Word.cut_mark rfl]
    simp only [Option.map_map, words, List.cons_append, List.append_assoc]
    rfl
  | .binary op l r, h, cs, hcs => by
    obtain ⟨hl, hr⟩ := h.binary
    -- a power is printed as a call, every other operation between its operands
    by_cases hop : op = .pow
    · subst hop
      have htext : (expression s (.binary .pow l r)).toList ++ cs =
          "pow".toList ++ '(' :: ((expression s l).toList ++ ',' :: ' ' :: ((expression s r).toList ++ ')' :: cs)) := by
        simp [expression]
      rw [htext, Word.cut_name_before rfl (ends_cons rfl _), Word.cut_mark rfl, cut_expression hl (ends_cons rfl _),
        Word.cut_mark rfl, Word.cut_blank, cut_expression hr (ends_cons rfl _), Word.cut_mark rfl]
      simp only [Option.map_map, words, List.cons_append, List.append_assoc]
      rfl
    · have htext : (expression s (.binary op l r)).toList ++ cs =
          '(' :: ((expression s l).toList ++ ' ' :: (op.text.toList ++ ' ' :: ((expression s r).toList ++ ')' :: cs))) := by
        cases op <;> simp [expression] at hop ⊢
      rw [htext, Word.cut_mark rfl, cut_expression hl (ends_cons rfl _), cut_operatorChar hop,
        cut_expression hr (ends_cons rfl _), Word.cut_mark rfl, words_binary hop]
      simp only [Option.map_map, List.cons_append, List.append_assoc]
      rfl
  | .call f args, h, cs, hcs => by
    obtain ⟨hname, hargs⟩ := h.call
    have htext : (expression s (.call f args)).toList ++ cs =
        f.name.toList ++ '(' :: ((", ".intercalate (expressions s args)).toList ++ ')' :: cs) := by
      simp [expression]
    rw [htext, Word.cut_name_before hname (ends_cons rfl _), Word.cut_mark rfl, cut_expressions hargs (ends_cons rfl _),
      Word.cut_mark rfl]
    simp only [Option.map_map, words, List.cons_append, List.append_assoc, String.ofList_toList]
    rfl

theorem cut_expressions {s : Scope} : ∀ {ns : List Node}, AllNamed s ns → ∀ {cs : List Char},
    (∀ c ∈ cs.head?, Word.ends c) → Word.cut .nothing ((", ".intercalate (expressions s ns)).toList ++ cs) =
      (Word.cut .nothing cs).map (argumentWords id s ns ++ ·)
  | [], _, cs, _ => by
    cases hcut : Word.cut .nothing cs <;> simp [expressions, argumentWords, hcut]
  | [n], h, cs, hcs => by
    have htext : (", ".intercalate (expressions s [n])).toList = (expression s n).toList := by simp [expressions]
    rw [htext]
    exact cut_expression h.cons.1 hcs
  | n :: n' :: ns, h, cs, hcs => by
    obtain ⟨hn, hns⟩ := h.cons
    have htext : (", ".intercalate (expressions s (n :: n' :: ns))).toList ++ cs =
        (expression s n).toList ++ ',' :: ' ' :: ((", ".intercalate (expressions s (n' :: ns))).toList ++ cs) := by
      rw [expressions, expressions, String.intercalate_cons_cons]
      simp
    rw [htext, cut_expression hn (ends_cons rfl _), Word.cut_mark rfl, Word.cut_blank, cut_expressions hns hcs]
    simp only [Option.map_map, argumentWords, List.cons_append, List.append_assoc]
    rfl

end

/-! ## From words to the term -/

theorem steps_literal (v : Float) {stack : List Term.Frame} {w : Word} (hcall : w ≠ .symbol '(')
    (helement : w ≠ .symbol '[') (ws : List Word) :
    Term.steps (.operand stack) (literalWords v ++ w :: ws) =
      Term.steps (.operator stack (literalTerm v)) (w :: ws) := by
  have hmagnitude : ∀ {w : Word}, w ≠ .symbol '(' → w ≠ .symbol '[' → ∀ (stack : List Term.Frame) (ws : List Word),
      Term.steps (.operand stack) (magnitudeWord v :: w :: ws) =
        Term.steps (.operator stack (magnitudeTerm v)) (w :: ws) := by
    intro w hcall helement stack ws
    unfold magnitudeWord magnitudeTerm
    split
    · rfl
    · exact Term.steps_constant hcall helement ws
  unfold literalWords literalTerm
  split
  · exact Term.steps_constant hcall helement ws
  · split
    · exact hmagnitude (by simp) (by simp) (.negated :: .group :: stack) (w :: ws)
    · exact hmagnitude hcall helement stack ws

theorem steps_group {op : Operator} (hop : op ≠ .pow) (stack : List Term.Frame) (t : Term) (ws : List Word) :
    Term.steps (.operator (.group :: stack) t) (.symbol (operatorChar op) :: ws) =
      Term.steps (.operand (.left op t :: .group :: stack)) ws := by
  cases op with
  | pow => exact absurd rfl hop
  | add => rfl
  | sub => rfl
  | mul => rfl
  | div => rfl

mutual

/-- **The words of a tree are read as its term**, whatever is open on the left. -/
theorem steps_words (rename : String → String) (s : Scope) : ∀ (n : Node) (stack : List Term.Frame) {w : Word},
    w ≠ .symbol '(' → w ≠ .symbol '[' → ∀ ws : List Word,
      Term.steps (.operand stack) (words rename s n ++ w :: ws) =
        Term.steps (.operator stack (term rename s n)) (w :: ws)
  | .const v, stack, w, hcall, helement, ws => steps_literal v hcall helement ws
  | .state slot, stack, w, _, _, ws => Term.steps_element _ stack (w :: ws)
  | .clock reading, stack, w, hcall, helement, ws => Term.steps_constant hcall helement ws
  | .neg n, stack, w, _, _, ws => by
    have hn := steps_words rename s n (.negated :: .group :: stack) (w := .symbol ')') (by simp) (by simp) (w :: ws)
    simp only [words, List.cons_append, List.append_assoc, List.nil_append, Term.steps_cons]
    exact hn
  | .binary op l r, stack, w, _, _, ws => by
    by_cases hop : op = .pow
    · subst hop
      have hl := steps_words rename s l (.call "pow" [] :: stack) (w := .symbol ',') (by simp) (by simp)
        (words rename s r ++ .symbol ')' :: w :: ws)
      have hr := steps_words rename s r (.call "pow" [term rename s l] :: stack) (w := .symbol ')') (by simp) (by simp)
        (w :: ws)
      simp only [words, List.cons_append, List.append_assoc, List.nil_append]
      exact hl.trans hr
    · have hsymbol : (Word.symbol (operatorChar op)) ≠ .symbol '(' ∧ (Word.symbol (operatorChar op)) ≠ .symbol '[' := by
        cases op <;> exact ⟨by simp [operatorChar], by simp [operatorChar]⟩
      have hl := steps_words rename s l (.group :: stack) hsymbol.1 hsymbol.2 (words rename s r ++ .symbol ')' :: w :: ws)
      have hr := steps_words rename s r (.left op (term rename s l) :: .group :: stack) (w := .symbol ')') (by simp)
        (by simp) (w :: ws)
      -- the left operand is read inside the open group, the right one behind the operator that waits for it
      rw [words_binary hop, term_binary hop]
      simp only [List.cons_append, List.append_assoc, List.nil_append]
      exact hl.trans ((steps_group hop stack _ _).trans hr)
  | .call f [], stack, w, _, _, ws => rfl
  | .call f (n :: ns), stack, w, _, _, ws => by
    have hargs := steps_arguments rename s (n :: ns) (List.cons_ne_nil n ns) (rename f.name) [] stack (w :: ws)
    simp only [words, List.cons_append, List.append_assoc, List.nil_append]
    exact hargs

theorem steps_arguments (rename : String → String) (s : Scope) : ∀ ns : List Node, ns ≠ [] → ∀ (f : String)
    (done : List Term) (stack : List Term.Frame) (ws : List Word),
      Term.steps (.operand (.call f done :: stack)) (argumentWords rename s ns ++ .symbol ')' :: ws) =
        Term.steps (.operator stack (.call f (done.reverse ++ terms rename s ns))) ws
  | [], hne, _, _, _, _ => absurd rfl hne
  | [n], _, f, done, stack, ws => by
    have hn := steps_words rename s n (.call f done :: stack) (w := .symbol ')') (by simp) (by simp) ws
    rw [terms, terms, ← List.reverse_cons]
    exact hn
  | n :: n' :: ns, _, f, done, stack, ws => by
    have hn := steps_words rename s n (.call f done :: stack) (w := .symbol ',') (by simp) (by simp)
      (argumentWords rename s (n' :: ns) ++ .symbol ')' :: ws)
    have hns := steps_arguments rename s (n' :: ns) (List.cons_ne_nil n' ns) f (term rename s n :: done) stack ws
    rw [List.reverse_cons, List.append_assoc, List.singleton_append] at hns
    rw [argumentWords, List.append_assoc, List.cons_append, hn, terms]
    exact hns

end

/-! ## Substitutions -/

/-- A word after names were replaced. -/
def Word.substitute (rename : String → String) : Word → Word
  | .name n => .name (rename n)
  | w => w

/-- Replacing names leaves alone all names but those of functions. -/
structure Spares (rename : String → String) : Prop where
  arrays : ∀ name, rename (arrayName name) = arrayName name
  clocks : ∀ reading, rename (clockName reading) = clockName reading
  index : rename "_i" = "_i"
  nan : rename "NAN" = "NAN"
  infinity : rename "INFINITY" = "INFINITY"
  pow : rename "pow" = "pow"

theorem substitute_literal {rename : String → String} (h : Spares rename) (v : Float) :
    (literalWords v).map (Word.substitute rename) = literalWords v := by
  have hmagnitude : Word.substitute rename (magnitudeWord v) = magnitudeWord v := by
    unfold magnitudeWord
    split
    · rfl
    · rw [Word.substitute, h.infinity]
  unfold literalWords
  split
  · rw [List.map_singleton, Word.substitute, h.nan]
  · split
    · rw [List.map_cons, List.map_cons, List.map_cons, hmagnitude]
      rfl
    · rw [List.map_singleton, hmagnitude]

mutual

theorem substitute_words {rename : String → String} (h : Spares rename) (s : Scope) : ∀ n : Node,
    (words id s n).map (Word.substitute rename) = words rename s n
  | .const v => substitute_literal h v
  | .state slot => by simp only [words, List.map_cons, List.map_nil, Word.substitute, h.arrays, h.index]
  | .clock reading => by simp only [words, List.map_cons, List.map_nil, Word.substitute, h.clocks]
  | .neg n => by
    simp only [words, List.map_cons, List.map_append, List.map_nil, Word.substitute, substitute_words h s n]
  | .binary .pow l r => by
    simp only [words, List.map_cons, List.map_append, List.map_nil, Word.substitute, substitute_words h s l,
      substitute_words h s r, h.pow]
  | .binary .add l r => by
    simp only [words, List.map_cons, List.map_append, List.map_nil, Word.substitute, substitute_words h s l,
      substitute_words h s r]
  | .binary .sub l r => by
    simp only [words, List.map_cons, List.map_append, List.map_nil, Word.substitute, substitute_words h s l,
      substitute_words h s r]
  | .binary .mul l r => by
    simp only [words, List.map_cons, List.map_append, List.map_nil, Word.substitute, substitute_words h s l,
      substitute_words h s r]
  | .binary .div l r => by
    simp only [words, List.map_cons, List.map_append, List.map_nil, Word.substitute, substitute_words h s l,
      substitute_words h s r]
  | .call f args => by
    simp only [words, List.map_cons, List.map_append, List.map_nil, Word.substitute, substitute_arguments h s args, id]

theorem substitute_arguments {rename : String → String} (h : Spares rename) (s : Scope) : ∀ ns : List Node,
    (argumentWords id s ns).map (Word.substitute rename) = argumentWords rename s ns
  | [] => rfl
  | [n] => substitute_words h s n
  | n :: n' :: ns => by
    simp only [argumentWords, List.map_cons, List.map_append, Word.substitute, substitute_words h s n,
      substitute_arguments h s (n' :: ns)]

end

/-! ## Statements -/

/-- **The assignment a statement makes**, after names were replaced. -/
def Assignment.ofText? (rename : String → String) (text : String) : Option Assignment :=
  (Word.ofText text).bind fun ws => ofWords? (ws.map (Word.substitute rename))

theorem ofText_statement {s : Scope} {u : Update} (htarget : (s.nameOf u.target).toList.all Lexeme.isNameRest)
    (hnode : Named s u.node) : Word.ofText (statement s u) =
      some (.name (arrayName (s.nameOf u.target)) :: .symbol '[' :: .name "_i" :: .symbol ']' :: .symbol '=' ::
        (words id s u.node ++ [.symbol ';'])) := by
  have htext : (statement s u).toList = (arrayName (s.nameOf u.target)).toList ++ '[' :: ("_i".toList ++
      ']' :: ' ' :: '=' :: ' ' :: ((expression s u.node).toList ++ [';'])) := by
    simp [statement, element]
  have hblank : ∀ d ∈ (' ' :: ((expression s u.node).toList ++ [';'])).head?, Word.isOperator d = false :=
    forall_head_cons (by rfl) _
  rw [Word.ofText, htext, Word.cut_name_before (isName_arrayName htarget) (ends_cons rfl _), Word.cut_mark rfl,
    Word.cut_name_before rfl (ends_cons rfl _), Word.cut_mark rfl, Word.cut_blank, Word.cut_operator rfl hblank,
    Word.cut_blank, cut_expression hnode (ends_cons rfl _), Word.cut_mark rfl]
  simp only [Option.map_map, String.ofList_toList]
  rfl

theorem ofWords?_words (rename : String → String) (s : Scope) (n : Node) :
    Term.ofWords? (words rename s n ++ [.symbol ';']) = some (term rename s n) := by
  have hsteps := steps_words rename s n [] (w := .symbol ';') (by simp) (by simp) []
  rw [Term.ofWords?, hsteps]
  rfl

/-- **A printed statement is read as its update.** -/
theorem ofText?_statement {rename : String → String} (h : Spares rename) {s : Scope} {u : Update}
    (htarget : (s.nameOf u.target).toList.all Lexeme.isNameRest) (hnode : Named s u.node) :
    Assignment.ofText? rename (statement s u) = some ⟨arrayName (s.nameOf u.target), term rename s u.node⟩ := by
  have hterm := ofWords?_words rename s u.node
  rw [Assignment.ofText?, ofText_statement htarget hnode, Option.bind_some]
  simp only [List.map_cons, List.map_append, List.map_nil, Word.substitute, h.arrays, h.index, substitute_words h]
  rw [Assignment.ofWords?, if_pos rfl, hterm]
  rfl

end Kernel
end FixedStep
