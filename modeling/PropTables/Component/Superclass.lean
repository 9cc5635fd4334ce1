import PropTables.Names.Scope

/-!
Which classes are components: those that extend a base class of the component library.
-/

namespace PropTables

def componentBases : List String := ["Component", "PureComponent"]

def libraryGlobal : String := "React"

namespace Binding

def valueImport? (b : Binding) (source : Text) : Option ImportSpecifier :=
  match b.referent with
  | .import_ s => if s.kind = .value ∧ s.source = source then some s else none
  | _ => none

end Binding

namespace Scope

def isLibrary (s : Scope) (source : Text) (name : String) : Bool :=
  match s.lookup name with
  | none => name == libraryGlobal
  | some b => ((b.valueImport? source).map fun i => i.isDefault || i.isNamespace).getD false

def isImportedBase (s : Scope) (source : Text) (name : String) : Bool :=
  match (s.lookup name).bind (·.valueImport? source) with
  | some i => !i.isDefault && (i.imported.map componentBases.contains).getD false
  | none => false

def isComponentBase (s : Scope) (source : Text) : Expr → Bool
  | .member _ (.name _ ident) attr => componentBases.contains attr && s.isLibrary source ident
  | .name _ ident => s.isImportedBase source ident
  | _ => false

end Scope

namespace ClassDeclaration

def property? (c : ClassDeclaration) (name : Text) : Option (Nat × ClassProperty) :=
  c.body.zipIdx.findSome? fun m =>
    match m.1 with
    | .property p => if p.key = name ∧ !p.isStatic ∧ !p.isComputed then some (m.2, p) else none
    | .method _ => none

end ClassDeclaration

end PropTables
