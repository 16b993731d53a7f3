import FixedStep.Span
import FixedStep.Token.Basic
/-!
# Combinator — parsers put together from parsers

A parser reads tokens from a cursor and moves it.  Choice is ordered and repetition is greedy, and both go back to where
an attempt that failed began.  Going back forgets no refusal: the one that lies furthest on is what a text is blamed for
when nothing reads it to its end.
-/
namespace FixedStep

/-- What an attempt looks for at its first token. -/
inductive Pattern where
  | token (t : Token)
  | name
  /-- One of several tokens. -/
  | somethingElse
  | endOfInput
deriving DecidableEq, Repr

namespace Pattern

def text : Pattern → String
  | token t => "'" ++ t.text ++ "'"
  | name => "'<ident>'"
  | somethingElse => "something else"
  | endOfInput => "end of input"

/-- Patterns as messages list them. -/
def listed : List Pattern → String
  | [] => "something else"
  | [p] => p.text
  | [p, last] => p.text ++ ", or " ++ last.text
  | p :: ps => p.text ++ ", " ++ listed ps

end Pattern

/-- Where reading stopped: the token that cannot follow, or the end of the text, and what could have stood there. -/
structure Refusal where
  found : Option (Placed Token)
  expected : List Pattern
deriving Repr

def Refusal.message (r : Refusal) : String :=
  "found " ++ (match r.found with | some t => "'" ++ t.value.text ++ "'" | none => "end of input") ++
    " expected " ++ Pattern.listed r.expected

/-! ## Cursors -/

/-- A place among the tokens, and the furthest place where something was refused. -/
structure Cursor where
  rest : List (Placed Token)
  /-- The byte at which the last token read ends. -/
  stop : Nat
  /-- The tokens from the furthest refusal on. -/
  furthest : List (Placed Token)
  /-- All that was looked for there. -/
  expected : List Pattern

namespace Cursor

def start (tokens : List (Placed Token)) : Cursor := ⟨tokens, 0, tokens, []⟩

def addPattern (ps : List Pattern) (p : Pattern) : List Pattern := if p ∈ ps then ps else ps ++ [p]

/-- A pattern is refused at this place.  It counts unless something was refused further on. -/
def refuse (c : Cursor) (p : Pattern) : Cursor :=
  if c.rest.length < c.furthest.length then ⟨c.rest, c.stop, c.rest, [p]⟩
  else if c.rest.length = c.furthest.length then ⟨c.rest, c.stop, c.furthest, addPattern c.expected p⟩
  else c

/-- Back to an earlier place, with what was refused since. -/
def backTo (c earlier : Cursor) : Cursor := ⟨earlier.rest, earlier.stop, c.furthest, c.expected⟩

/-- The byte at which the next token begins. -/
def nextStart (c : Cursor) : Nat :=
  match c.rest with
  | [] => c.stop
  | t :: _ => t.span.start

def refusal (c : Cursor) : Refusal := ⟨c.furthest.head?, c.expected⟩

end Cursor

/-! ## Parsers -/

/-- What a parser makes of a cursor: a result or none, and where that leaves the cursor. -/
abbrev Parser (α : Type) := Cursor → Option α × Cursor

namespace Parser

variable {α β : Type}

/-- The next token, if there is one that is asked for. -/
def select (p : Pattern) (f : Placed Token → Option α) : Parser α := fun c =>
  match c.rest with
  | [] => (none, c.refuse p)
  | t :: ts =>
    match f t with
    | none => (none, c.refuse p)
    | some a => (some a, ⟨ts, t.span.stop, c.furthest, c.expected⟩)

/-- One token and no other. -/
def just (t : Token) : Parser Token := select (.token t) fun found => if found.value = t then some t else none

def endOfInput : Parser Unit := fun c =>
  match c.rest with
  | [] => (some (), c)
  | _ :: _ => (none, c.refuse .endOfInput)

/-- Two parsers, one after the other. -/
def andThen (p : Parser α) (q : Parser β) : Parser (α × β) := fun c =>
  match p c with
  | (none, c) => (none, c)
  | (some a, c) =>
    match q c with
    | (none, c) => (none, c)
    | (some b, c) => (some (a, b), c)

def map (p : Parser α) (f : α → β) : Parser β := fun c =>
  let (found, after) := p c
  (found.map f, after)

def ignoreThen (p : Parser α) (q : Parser β) : Parser β := (p.andThen q).map (·.2)

def thenIgnore (p : Parser α) (q : Parser β) : Parser α := (p.andThen q).map (·.1)

def delimitedBy (p : Parser α) (opening closing : Parser Token) : Parser α := (opening.ignoreThen p).thenIgnore closing

/-- With the bytes from the first token read to the last. -/
def mapWith (p : Parser α) (f : α → Span → β) : Parser β := fun c =>
  let (found, after) := p c
  (found.map fun a => f a ⟨c.nextStart, after.stop⟩, after)

/-- **Ordered choice**: the second parser where the first fails. -/
def or (p q : Parser α) : Parser α := fun c =>
  match p c with
  | (none, failed) => q (failed.backTo c)
  | read => read

/-- A parser or nothing. -/
def orNot (p : Parser α) : Parser (Option α) := fun c =>
  match p c with
  | (none, failed) => (some none, failed.backTo c)
  | (some a, c) => (some (some a), c)

/-- Every repetition that this many attempts find. -/
def repeatUpTo (p : Parser α) : Nat → Cursor → List α × Cursor
  | 0, c => ([], c)
  | n + 1, c =>
    match p c with
    | (none, failed) => ([], failed.backTo c)
    | (some a, c) =>
      let (as, after) := repeatUpTo p n c
      (a :: as, after)

/-- **Greedy repetition**, of a parser that reads a token whenever it succeeds: at most once for every token. -/
def repeated (p : Parser α) (atLeast : Nat) : Parser (List α) := fun c =>
  let (found, after) := repeatUpTo p (c.rest.length + 1) c
  (if found.length < atLeast then none else some found, after)

/-- What follows the first item: separators, each with an item behind it, and one more separator if it may trail. -/
def separatedUpTo (item : Parser α) (separator : Parser β) (trailing : Bool) : Nat → Cursor → List α × Cursor
  | 0, c => ([], c)
  | n + 1, c =>
    match separator c with
    | (none, failed) => ([], failed.backTo c)
    | (some _, between) =>
      match item between with
      | (none, failed) => ([], failed.backTo (if trailing then between else c))
      | (some a, c) =>
        let (as, after) := separatedUpTo item separator trailing n c
        (a :: as, after)

/-- Items with separators between them, as many as there are. -/
def separatedBy (item : Parser α) (separator : Parser β) (trailing : Bool) : Parser (List α) := fun c =>
  match item c with
  | (none, failed) => (some [], failed.backTo c)
  | (some a, after) =>
    let (as, after) := separatedUpTo item separator trailing (after.rest.length + 1) after
    (some (a :: as), after)

/-- Folded from the left. -/
def foldl (p : Parser β) (more : Parser (List α)) (f : β → α → β) : Parser β :=
  (p.andThen more).map fun found => found.2.foldl f found.1

/-- Folded from the right. -/
def foldr (more : Parser (List α)) (p : Parser β) (f : α → β → β) : Parser β :=
  (more.andThen p).map fun found => found.1.foldr f found.2

def recursiveUpTo (f : Parser α → Parser α) : Nat → Cursor → Option α × Cursor
  | 0, c => (none, c)
  | n + 1, c => f (recursiveUpTo f n) c

/-- **A parser in terms of itself**, which it asks only behind a token that it has read. -/
def recursive (f : Parser α → Parser α) : Parser α := fun c => recursiveUpTo f (c.rest.length + 1) c

/-- **Reading all tokens**: what the parser makes of them, or the furthest refusal.  It does not unfold by itself, since a
grammar below it would unfold too. -/
@[irreducible]
def run (p : Parser α) (tokens : List (Placed Token)) : Except Refusal α :=
  match (p.thenIgnore endOfInput) (.start tokens) with
  | (some a, _) => .ok a
  | (none, c) => .error c.refusal

end Parser
end FixedStep
