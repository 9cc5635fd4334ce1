import PropTables.Names.Exports

/-!
Scopes: the names of a module, and over them frames of type parameters. A name in an inner frame
hides the same name further out, and of two bindings in one frame the later counts.
-/

namespace PropTables

abbrev Frame := List (String × Binding)

def Frame.lookup (f : Frame) (name : String) : Option Binding :=
  (f.reverse.find? (·.1 == name)).map (·.2)

structure Scope where
  /-- The frames over the module's names, the innermost first. -/
  inner : List Frame
  base : Frame
  file : Option String

namespace Scope

def empty : Scope := ⟨[], [], none⟩

def frames (s : Scope) : List Frame :=
  s.inner ++ [s.base]

def lookup (s : Scope) (name : String) : Option Binding :=
  s.frames.findSome? (·.lookup name)

def root (s : Scope) : Scope :=
  { s with inner := [] }

def child (s : Scope) (f : Frame) : Scope :=
  { s with inner := f :: s.inner }

def withParams (s : Scope) (params : List TypeParameter) : Scope :=
  if params.isEmpty then s
  else s.child (params.map fun p => (p.name, ⟨.parameter p, s.file⟩))

@[simp] theorem root_root (s : Scope) : s.root.root = s.root := rfl

@[simp] theorem root_child (s : Scope) (f : Frame) : (s.child f).root = s.root := rfl

@[simp] theorem root_withParams (s : Scope) (params : List TypeParameter) :
    (s.withParams params).root = s.root := by
  unfold withParams
  split <;> rfl

theorem lookup_child (s : Scope) (f : Frame) (name : String) :
    (s.child f).lookup name = (f.lookup name).or (s.lookup name) := by
  simp only [lookup, frames, child, List.cons_append, List.findSome?_cons]
  cases f.lookup name <;> rfl

def ofFlatModule (m : FlatModule) : Scope :=
  ⟨[], m.binds.map fun b => (b.1, ⟨b.2, m.file⟩), m.file⟩

def ofModule (m : Module) : Scope :=
  ofFlatModule (.ofModule m)

end Scope

end PropTables
