import PropTables.Source.Position

/-!
Where in which file something is, as far as that is known.
-/

namespace PropTables

structure Span where
  file : Option String
  line : Option Nat
  column : Option Nat
  endLine : Option Nat
  endColumn : Option Nat
deriving DecidableEq, Repr

namespace Span

def unknown : Span := ⟨none, none, none, none, none⟩

def inFile (file : Option String) : Span :=
  { unknown with file }

def atPosition (p : Position) (file : Option String) : Span :=
  ⟨file.filter (· ≠ ""), some p.line, some p.column, none, none⟩

def withFile (s : Span) (file : Option String) : Span :=
  { s with file := s.file <|> file }

def describe (s : Span) : String :=
  let number (n : Option Nat) := (n.map toString).getD "?"
  s.file.getD "?" ++ ":" ++ number s.line ++ ":" ++ number s.column

end Span

end PropTables
