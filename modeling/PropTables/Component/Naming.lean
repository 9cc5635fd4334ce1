import PropTables.Component.Names
import PropTables.Library.Traced

/-!
Computations that ask for the names of libraries as they go. A library gets its name where it is
first asked for, and keeps it whether or not the computation succeeds.
-/

namespace PropTables

inductive LibraryRole where
  | validators
  | combination
deriving DecidableEq, Repr

def Naming (α : Type) : Type :=
  LibraryNames → Traced α × LibraryNames

namespace Naming

def bind (x : Naming α) (f : α → Naming β) : Naming β := fun l =>
  let (t, l) := x l
  match t.result with
  | .error e => (⟨t.visited, .error e⟩, l)
  | .ok a =>
    let (u, l) := f a l
    (⟨t.visited ++ u.visited, u.result⟩, l)

instance : Monad Naming where
  pure a l := (pure a, l)
  bind := bind

instance : MonadLift Traced Naming where
  monadLift t l := (t, l)

def reference (source : Text) (preferred : String) : Naming String := fun l =>
  let (name, l) := l.reference source preferred
  (pure name, l)

end Naming

end PropTables
