import PropTables.Grammar.Phrase

/-!
Reading a sequence of tokens by a grammar. The next token alone decides every step, so a reading
never goes back; where it fails, it reports the tokens from the first one that cannot go on.
-/

namespace PropTables

structure Cursor where
  last : Position
  rest : List Token

namespace Cursor

def atTerminal (c : Cursor) (p : Terminal → Bool) : Bool :=
  match c.rest with
  | [] => false
  | t :: _ => p t.terminal

def start (c : Cursor) : Position :=
  match c.rest with
  | [] => c.last
  | t :: _ => t.start

end Cursor

abbrev Reader (α : Type) := Cursor → Except Cursor (α × Cursor)

namespace Reader

def token (ts : List Terminal) : Reader Token
  | ⟨last, t :: rest⟩ =>
    if ts.contains t.terminal then .ok (t, ⟨t.extent.stop, rest⟩) else .error ⟨last, t :: rest⟩
  | c => .error c

def both (a : Reader α) (b : Reader β) : Reader (α × β) := fun c => do
  let (x, c) ← a c
  let (y, c) ← b c
  return ((x, y), c)

def map (f : α → β) (a : Reader α) : Reader β := fun c => do
  let (x, c) ← a c
  return (f x, c)

def spanned (a : Reader α) : Reader (Extent × α) := fun c => do
  let (x, d) ← a c
  return ((⟨c.start, d.last⟩, x), d)

/-- Repeats a reader as long as the next token starts it. Each round takes a token, so there are at
most as many rounds as tokens. -/
def many (starts : Terminal → Bool) (a : Reader α) : (rounds : Nat) → Reader (List α)
  | 0, c => .ok ([], c)
  | rounds + 1, c =>
    if c.atTerminal starts then do
      let (x, c) ← a c
      let (xs, c) ← many starts a rounds c
      return (x :: xs, c)
    else .ok ([], c)

def afterItem (separates starts : Terminal → Bool) (a : Reader α) (separator : Reader β) :
    (rounds : Nat) → Reader (List α)
  | 0, c => .ok ([], c)
  | rounds + 1, c =>
    if c.atTerminal separates then do
      let (_, c) ← separator c
      if c.atTerminal starts then do
        let (x, c) ← a c
        let (xs, c) ← afterItem separates starts a separator rounds c
        return (x :: xs, c)
      else return ([], c)
    else .ok ([], c)

end Reader

variable {N : Type → Type}

def Phrase.read (g : Grammar N) (nonterminal : {β : Type} → N β → Reader β) :
    {α : Type} → Phrase N α → Reader α
  | _, empty => fun c => .ok ((), c)
  | _, token ts => Reader.token ts
  | _, call n => nonterminal n
  | _, both a b => Reader.both (a.read g nonterminal) (b.read g nonterminal)
  | _, either a b => fun c =>
    if c.atTerminal (a.startsWith g) then a.read g nonterminal c else b.read g nonterminal c
  | _, maybe a => fun c =>
    if c.atTerminal (a.startsWith g) then Reader.map some (a.read g nonterminal) c
    else .ok (none, c)
  | _, many a => fun c =>
    Reader.many (a.startsWith g) (a.read g nonterminal) c.rest.length c
  | _, list a s => fun c => do
    let (x, c) ← a.read g nonterminal c
    let (xs, c) ← Reader.afterItem (s.startsWith g) (a.startsWith g) (a.read g nonterminal)
      (s.read g nonterminal) c.rest.length c
    return (x :: xs, c)
  | _, map f a => Reader.map f (a.read g nonterminal)
  | _, spanned a => Reader.spanned (a.read g nonterminal)

namespace Grammar

def readWithin (g : Grammar N) : (depth : Nat) → {α : Type} → N α → Reader α
  | 0, _, _ => fun c => .error c
  | depth + 1, _, n => (g.rule n).read g (g.readWithin depth)

/-- The longest chain of nonterminals that opens without a token is shorter than this. -/
def chainBound : Nat := 16

/-- Reads all the tokens as one nonterminal. A failure leaves the tokens from the first that cannot
go on. -/
def read (g : Grammar N) (n : N α) (tokens : List Token) : Except (List Token) α :=
  match g.readWithin (chainBound * (tokens.length + 1)) n ⟨.first, tokens⟩ with
  | .error c => .error c.rest
  | .ok (a, ⟨_, []⟩) => .ok a
  | .ok (_, c) => .error c.rest

end Grammar

end PropTables
