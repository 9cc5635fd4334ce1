import PropTables.Names.Referent

/-!
The exports of a module. Every way to export comes down to entries, which give an exported name the
name it has inside the module, and to a list of statements without exports in which that name is
looked up. A name that is exported from another module becomes an import of it.
-/

namespace PropTables

structure ExportEntry where
  exported : String
  inner : String
  loc : Position
deriving DecidableEq, Repr

def defaultName : String := "_default"

def ExportSpecifier.toImport (source : Text) (kind : ImportKind) (s : ExportSpecifier) :
    ImportSpecifier :=
  ⟨s.loc, s.exported, some s.inner, source, kind⟩

namespace DefaultExport

def inner : DefaultExport → String
  | class_ c => c.name.getD defaultName
  | function f => f.name
  | expression (.name _ ident) => ident
  | expression _ => defaultName

def statements (loc : Position) : DefaultExport → List Statement
  | class_ c => [.declaration (.class_ { c with name := some (c.name.getD defaultName) })]
  | function f => [.declaration (.function f)]
  | expression (.name ..) => []
  | expression e => [.declaration (.binding ⟨loc, .const, [⟨loc, defaultName, none, some e⟩]⟩)]

end DefaultExport

namespace Item

def statements : Item → List Statement
  | statement s => [s]
  | exportDeclaration _ d => [.declaration d]
  | exportDefault loc d => d.statements loc
  | exportNamed e =>
    match e.source with
    | some source =>
      [.import_ ⟨e.loc, source, e.kind, e.specifiers.map (·.toImport source e.kind)⟩]
    | none => []
  | exportAll .. => []

def exports : Item → List ExportEntry
  | statement _ => []
  | exportDeclaration loc d => d.binds.map fun b => ⟨b.1, b.1, loc⟩
  | exportDefault loc d => [⟨"default", d.inner, loc⟩]
  | exportNamed e =>
    e.specifiers.map fun s => ⟨s.exported, if e.source.isSome then s.exported else s.inner, s.loc⟩
  | exportAll .. => []

def star? : Item → Option Text
  | exportAll _ source => some source
  | _ => none

end Item

/-- A module with its exports set aside. -/
structure FlatModule where
  body : List Statement
  exports : List ExportEntry
  stars : List Text
  file : Option String

namespace FlatModule

def ofModule (m : Module) : FlatModule :=
  ⟨m.items.flatMap Item.statements, m.items.flatMap Item.exports, m.items.filterMap Item.star?,
    m.file⟩

def binds (m : FlatModule) : List (String × Referent) :=
  m.body.flatMap Statement.binds

def export? (m : FlatModule) (exported : String) : Option ExportEntry :=
  m.exports.find? (·.exported == exported)

def referent? (m : FlatModule) (inner : String) : Option Referent :=
  (m.binds.find? (·.1 == inner)).map (·.2)

def exported? (m : FlatModule) (exported : String) : Option Referent :=
  (m.export? exported).bind fun e => m.referent? e.inner

end FlatModule

end PropTables
