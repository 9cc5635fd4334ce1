import PropTables.Source.Pattern
import PropTables.Source.Position

/-!
Lexemes: the pieces into which a source text falls. The classes are tried in one fixed order, so
`-1` is a number, `--1` an operator and a number, and `//` always starts a comment.
-/

namespace PropTables

inductive LexemeClass where
  | comment
  | blank
  | token (t : Terminal)
deriving DecidableEq, Repr

structure Lexeme where
  class_ : LexemeClass
  text : String
  extent : Extent
deriving DecidableEq, Repr

structure Token where
  terminal : Terminal
  text : String
  extent : Extent
deriving DecidableEq, Repr

namespace Token

def start (t : Token) : Position :=
  t.extent.start

end Token

structure Comment where
  text : String
  extent : Extent
deriving DecidableEq, Repr

namespace Lexeme

def token? (l : Lexeme) : Option Token :=
  match l.class_ with
  | .token t => some ⟨t, l.text, l.extent⟩
  | _ => none

def comment? (l : Lexeme) : Option Comment :=
  match l.class_ with
  | .comment => some ⟨l.text, l.extent⟩
  | _ => none

end Lexeme

def LexemeClass.recognise (cs : List Char) : Option (LexemeClass × Nat) :=
  let as (c : LexemeClass) (n : Option Nat) := n.map (c, ·)
  as .comment (Pattern.comment cs)
  <|> as (.token .number) (Pattern.number cs)
  <|> as (.token .string) (Pattern.string cs)
  <|> (Pattern.name cs).map (fun n => (.token (Terminal.ofWord (String.ofList (cs.take n))), n))
  <|> as (.token .template) (Pattern.template cs)
  <|> as (.token .operator) (Pattern.operator cs)
  <|> as .blank (Pattern.blank cs)
  <|> (Pattern.mark cs).map (fun (m, n) => (.token (.mark m), n))

/-- The lexemes of a text up to the first place where none starts, and the character there. -/
structure Lexing where
  lexemes : List Lexeme
  stuck : Option (Char × Position)

namespace Lexing

/-- Every lexeme takes at least one character, so as many steps as there are characters suffice. -/
def scan : (steps : Nat) → Position → List Char → Lexing
  | _, _, [] => ⟨[], none⟩
  | 0, p, c :: _ => ⟨[], some (c, p)⟩
  | steps + 1, p, c :: r =>
    match LexemeClass.recognise (c :: r) with
    | none => ⟨[], some (c, p)⟩
    | some (k, n) =>
      let text := (c :: r).take n
      let q := p.advance text
      let rest := scan steps q ((c :: r).drop n)
      ⟨⟨k, String.ofList text, ⟨p, q⟩⟩ :: rest.lexemes, rest.stuck⟩

def ofSource (source : String) : Lexing :=
  scan source.length .first source.toList

def tokens (l : Lexing) : List Token :=
  l.lexemes.filterMap Lexeme.token?

def comments (l : Lexing) : List Comment :=
  l.lexemes.filterMap Lexeme.comment?

end Lexing

end PropTables
