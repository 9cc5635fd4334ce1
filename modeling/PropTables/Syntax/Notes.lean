/-!
Comments that belong to a part of a program: those before it and those after it.
-/

namespace PropTables

structure Notes where
  leading : List String
  trailing : List String
deriving DecidableEq, Repr

namespace Notes

def none : Notes := ⟨[], []⟩

def isEmpty (n : Notes) : Bool :=
  n.leading.isEmpty && n.trailing.isEmpty

def absorb (inner outer : Notes) : Notes :=
  ⟨inner.leading ++ outer.leading, inner.trailing ++ outer.trailing⟩

/-- The notes of a run of fields, of which the first takes the leading and the last the trailing
comments of the whole. -/
def before (n : Notes) (leading : List String) : Notes :=
  ⟨leading ++ n.leading, n.trailing⟩

def after (n : Notes) (trailing : List String) : Notes :=
  ⟨n.leading, n.trailing ++ trailing⟩

end Notes

end PropTables
