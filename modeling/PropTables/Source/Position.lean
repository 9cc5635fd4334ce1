/-!
Positions in a source text. Lines are separated by line feeds, columns count characters, and both
start at one.
-/

namespace PropTables

structure Position where
  line : Nat
  column : Nat
deriving DecidableEq, Repr

namespace Position

def first : Position := ⟨1, 1⟩

def next (p : Position) (c : Char) : Position :=
  if c = '\n' then ⟨p.line + 1, 1⟩ else ⟨p.line, p.column + 1⟩

def advance (p : Position) (cs : List Char) : Position :=
  cs.foldl next p

@[simp] theorem advance_nil (p : Position) : p.advance [] = p := rfl

@[simp] theorem advance_cons (p : Position) (c : Char) (cs : List Char) :
    p.advance (c :: cs) = (p.next c).advance cs := rfl

theorem advance_append (p : Position) (as bs : List Char) :
    p.advance (as ++ bs) = (p.advance as).advance bs := by
  simp only [advance, List.foldl_append]

def before (p q : Position) : Bool :=
  p.line < q.line || (p.line == q.line && p.column < q.column)

def upTo (p q : Position) : Bool :=
  !q.before p

end Position

/-- A piece of the text: where it starts, and where the text goes on after it. -/
structure Extent where
  start : Position
  stop : Position
deriving DecidableEq, Repr

end PropTables
