import PropTables.Source.Lexeme

/-!
Grammars as data. A phrase describes sequences of tokens together with the value that such a
sequence has; it refers to the nonterminals of a grammar by name. A grammar gives every nonterminal its
phrase, and states which terminals can start it and whether it can be empty.

In `either a b` the first phrase is not empty, and the next token alone decides between the two.
-/

namespace PropTables

inductive Phrase (N : Type → Type) : Type → Type 1 where
  | empty : Phrase N Unit
  | token (ts : List Terminal) : Phrase N Token
  | call (n : N α) : Phrase N α
  | both (a : Phrase N α) (b : Phrase N β) : Phrase N (α × β)
  | either (a b : Phrase N α) : Phrase N α
  | maybe (a : Phrase N α) : Phrase N (Option α)
  | many (a : Phrase N α) : Phrase N (List α)
  /-- One phrase or more, with a separator between two of them and maybe one after the last. -/
  | list (a : Phrase N α) (separator : Phrase N β) : Phrase N (List α)
  | map (f : α → β) (a : Phrase N α) : Phrase N β
  | spanned (a : Phrase N α) : Phrase N (Extent × α)

namespace Phrase

variable {N : Type → Type}

instance : Functor (Phrase N) where
  map := Phrase.map

instance : Applicative (Phrase N) where
  pure a := .map (fun _ => a) .empty
  seq f a := .map (fun p => p.1 p.2) (.both f (a ()))
  seqLeft a b := .map Prod.fst (.both a (b ()))
  seqRight a b := .map Prod.snd (.both a (b ()))

instance : OrElse (Phrase N α) where
  orElse a b := .either a (b ())

def mark (m : Mark) : Phrase N Token :=
  .token [.mark m]

def keyword (k : Keyword) : Phrase N Token :=
  .token [.keyword k]

def listOrNone (a : Phrase N α) (separator : Phrase N β) : Phrase N (List α) :=
  (Option.getD · []) <$> maybe (list a separator)

def present (a : Phrase N α) : Phrase N Bool :=
  Option.isSome <$> maybe a

end Phrase

structure Grammar (N : Type → Type) where
  rule : {α : Type} → N α → Phrase N α
  first : {α : Type} → N α → List Terminal
  nullable : {α : Type} → N α → Bool

namespace Phrase

variable {N : Type → Type}

def nullable (g : Grammar N) : {α : Type} → Phrase N α → Bool
  | _, empty => true
  | _, token _ => false
  | _, call n => g.nullable n
  | _, both a b => a.nullable g && b.nullable g
  | _, either a b => a.nullable g || b.nullable g
  | _, maybe _ => true
  | _, many _ => true
  | _, list a _ => a.nullable g
  | _, map _ a => a.nullable g
  | _, spanned a => a.nullable g

def startsWith (g : Grammar N) : {α : Type} → Phrase N α → Terminal → Bool
  | _, empty, _ => false
  | _, token ts, t => ts.contains t
  | _, call n, t => (g.first n).contains t
  | _, both a b, t => a.startsWith g t || (a.nullable g && b.startsWith g t)
  | _, either a b, t => a.startsWith g t || b.startsWith g t
  | _, maybe a, t => a.startsWith g t
  | _, many a, t => a.startsWith g t
  | _, list a _, t => a.startsWith g t
  | _, map _ a, t => a.startsWith g t
  | _, spanned a, t => a.startsWith g t

end Phrase

end PropTables
