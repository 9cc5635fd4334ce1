import PropTables.Names.Scope
import PropTables.Syntax.Module

/-!
Local names for libraries that a module does not import yet. Every library gets one name, which is
free in the module, and one import of its default export.
-/

namespace PropTables

/-- The names that are tried in turn. Among them there is a free one, as they are one more than the
names that are taken. -/
def nameCandidates (taken : List String) (preferred : String) : List String :=
  preferred :: (List.range taken.length).map fun n => preferred ++ toString (n + 2)

def freeName (taken : List String) (preferred : String) : String :=
  ((nameCandidates taken preferred).find? fun n => !taken.contains n).getD preferred

structure LibraryNames where
  taken : List String
  /-- The libraries that were asked for, in order, each with its name. -/
  given : List (Text × String)

namespace LibraryNames

def ofTaken (taken : List String) : LibraryNames := ⟨taken, []⟩

def unique (l : LibraryNames) (preferred : String) : String × LibraryNames :=
  let name := freeName l.taken preferred
  (name, { l with taken := name :: l.taken })

def reference (l : LibraryNames) (source : Text) (preferred : String) : String × LibraryNames :=
  match l.given.find? (·.1 == source) with
  | some g => (g.2, l)
  | none =>
    let (name, l) := l.unique preferred
    (name, { l with given := l.given ++ [(source, name)] })

/-- An import that stands nowhere in the source. -/
def importOf (source : Text) (name : String) : ImportDeclaration :=
  ⟨⟨0, 0⟩, source, .value, [⟨⟨0, 0⟩, name, some "default", source, .value⟩]⟩

def pending (l : LibraryNames) : List ImportDeclaration :=
  l.given.map fun g => importOf g.1 g.2

end LibraryNames

end PropTables
