import PropTables.Component.OnDemand
import PropTables.Component.Superclass
import PropTables.Validator.Compare
import PropTables.Validator.Render

/-!
Generation of tables for the components of a module. Every table is converted before anything is
changed. The names of the libraries are handed on from one conversion to the next: a library gets its
name and its import where a table first asks for it.
-/

namespace PropTables

structure HostOptions where
  propTypesSource : Text
  propTypesName : String
  allSource : Text
  allName : String
  componentSource : Text
  fields : List (String × String)

def HostOptions.default : HostOptions where
  propTypesSource := .ofString "prop-types"
  propTypesName := "_PropTypes"
  allSource := .ofString "prop-types-extra/lib/all"
  allName := "_all"
  componentSource := .ofString "react"
  fields := [("props", "propTypes"), ("contextTypes", "contextTypes")]

structure GeneratedTable where
  className : String
  field : String
  staticField : String
  table : Validator
  loc : Position

namespace GeneratedTable

def render (t : GeneratedTable) (indent : Option Nat) : String :=
  "static " ++ t.staticField ++ " = " ++ t.table.render indent ++ ";"

def toProperty (t : GeneratedTable) : ClassProperty :=
  ⟨t.loc, .ofString t.staticField, none, some (.table t.table), true, false, false⟩

end GeneratedTable

structure TypedField where
  owner : ClassDeclaration
  field : String × String
  index : Nat
  property : ClassProperty

def TypedField.generated (f : TypedField) (table : Validator) : GeneratedTable :=
  ⟨f.owner.name.getD "default", f.field.1, f.field.2, table, f.property.loc⟩

def ClassDeclaration.typedFields (c : ClassDeclaration) (h : HostOptions) (scope : Scope) :
    List TypedField :=
  if (c.superclass.map (scope.isComponentBase h.componentSource)).getD false then
    h.fields.filterMap fun field =>
      (c.property? (.ofString field.1)).map fun p => ⟨c, field, p.1, p.2⟩
  else []

def Item.typedFields (i : Item) (h : HostOptions) (scope : Scope) : List TypedField :=
  (i.class?.map (·.typedFields h scope)).getD []

structure Insertion where
  index : Nat
  table : GeneratedTable

/-- The class with every table behind the field that it is made of, the later of two in front. -/
def ClassDeclaration.insert (c : ClassDeclaration) (insertions : List Insertion) :
    ClassDeclaration :=
  let behind (i : Nat) : List ClassMember :=
    ((insertions.filter (·.index == i)).map fun t => .property t.table.toProperty).reverse
  { c with body := c.body.zipIdx.flatMap fun m => m.1 :: behind m.2 }

def Item.insert (insertions : List Insertion) : Item → Item
  | statement (.declaration (.class_ c)) => statement (.declaration (.class_ (c.insert insertions)))
  | exportDefault loc (.class_ c) => exportDefault loc (.class_ (c.insert insertions))
  | exportDeclaration loc (.class_ c) => exportDeclaration loc (.class_ (c.insert insertions))
  | item => item

structure TransformResult where
  result : Module
  components : List GeneratedTable
  addedImports : List ImportDeclaration

namespace TransformResult

def changed (r : TransformResult) : Bool :=
  !r.components.isEmpty

end TransformResult

namespace HostOptions

/-- The local names of the libraries, in a module where some names are taken, if the validators are
asked for first. -/
def vocabulary (h : HostOptions) (taken : List String) : Vocabulary :=
  let (namespaceName, names) :=
    (LibraryNames.ofTaken taken).reference h.propTypesSource h.propTypesName
  ⟨namespaceName, (names.reference h.allSource h.allName).1⟩

def source (h : HostOptions) : LibraryRole → Text
  | .validators => h.propTypesSource
  | .combination => h.allSource

def preferredName (h : HostOptions) : LibraryRole → String
  | .validators => h.propTypesName
  | .combination => h.allName

def openSetting (h : HostOptions) (options : ConvertOptions) (l : Library) : OpenSetting :=
  ⟨options, fun role => Naming.reference (h.source role) (h.preferredName role), l⟩

end HostOptions

def Module.takenNames (m : Module) (scope : Scope) : List String :=
  scope.base.map (·.1) ++ m.classes.filterMap (·.name)

namespace OpenSetting

def convertField (o : OpenSetting) (scope : Scope) (f : TypedField) : Naming Insertion :=
  match f.property.ascription with
  | none =>
    (.fail (.missingType f.field.1) f.property.loc scope.file : Traced Insertion)
  | some t => do
    let table ← o.convertTable t scope scope.file
    return ⟨f.index, f.generated table⟩

def convertItem (o : OpenSetting) (h : HostOptions) (scope : Scope) (i : Item) :
    Naming (List Insertion) :=
  (i.typedFields h scope).mapM (o.convertField scope)

end OpenSetting

namespace Module

def convertItems (m : Module) (options : ConvertOptions) (h : HostOptions) (l : Library) :
    Traced (List (List Insertion)) × LibraryNames :=
  let scope := Scope.ofModule m
  m.items.mapM ((h.openSetting options l).convertItem h scope) (.ofTaken (m.takenNames scope))

def insert (m : Module) (insertions : List (List Insertion)) (added : List ImportDeclaration) :
    TransformResult :=
  let tables := insertions.flatten.map (·.table)
  if tables.isEmpty then ⟨m, [], []⟩
  else
    let items := List.zipWith (fun i ts => Item.insert ts i) m.items insertions
    ⟨{ m with items := added.map (fun d => .statement (.import_ d)) ++ items }, tables, added⟩

/-- Puts a table behind every typed field of every component of a module. -/
def transform (m : Module) (options : ConvertOptions) (h : HostOptions) (l : Library) :
    Traced TransformResult := do
  let (converted, names) := m.convertItems options h l
  return m.insert (← converted) names.pending

end Module

end PropTables
