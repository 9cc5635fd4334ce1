import PropTables.Syntax.Expression
import PropTables.Validator.Basic

/-!
Modules: imports, exports, declarations and statements.
-/

namespace PropTables

inductive ImportKind where
  | value
  | type
  | typeof
deriving DecidableEq, Repr

/-- One name that an import binds. It stands for the export `imported` of the source, or for the
whole module if there is none. -/
structure ImportSpecifier where
  loc : Position
  binds : String
  imported : Option String
  source : Text
  kind : ImportKind
deriving DecidableEq, Repr

namespace ImportSpecifier

def isDefault (s : ImportSpecifier) : Bool :=
  s.imported == some "default"

def isNamespace (s : ImportSpecifier) : Bool :=
  s.imported.isNone

end ImportSpecifier

structure ImportDeclaration where
  loc : Position
  source : Text
  kind : ImportKind
  specifiers : List ImportSpecifier
deriving DecidableEq, Repr

structure TypeAlias where
  loc : Position
  name : String
  params : List TypeParameter
  right : TypeExpr

structure InterfaceDeclaration where
  loc : Position
  name : String
  params : List TypeParameter
  body : ObjectType TypeExpr

/-- The initial value of a class field: from the source, or a generated table. -/
inductive FieldValue where
  | source (e : Expr)
  | table (v : Validator)

structure ClassProperty where
  loc : Position
  key : Text
  ascription : Option TypeExpr
  value : Option FieldValue
  isStatic : Bool
  optional : Bool
  isComputed : Bool

structure ClassMethod where
  loc : Position
  key : Text
  params : List Param
  result : Option TypeExpr
  isStatic : Bool

inductive ClassMember where
  | property (p : ClassProperty)
  | method (m : ClassMethod)

structure ClassDeclaration where
  loc : Position
  name : Option String
  params : List TypeParameter
  superclass : Option Expr
  superArgs : Option (List TypeExpr)
  body : List ClassMember

structure FunctionDeclaration where
  loc : Position
  name : String
  params : List Param
  result : Option TypeExpr

structure VariableDeclarator where
  loc : Position
  name : String
  ascription : Option TypeExpr
  init : Option Expr

inductive VariableKind where
  | const
  | let_
  | var
deriving DecidableEq, Repr

structure VariableDeclaration where
  loc : Position
  kind : VariableKind
  declarators : List VariableDeclarator

inductive Declaration where
  | typeAlias (a : TypeAlias)
  | interface (i : InterfaceDeclaration)
  | class_ (c : ClassDeclaration)
  | function (f : FunctionDeclaration)
  | binding (v : VariableDeclaration)

inductive Statement where
  | import_ (d : ImportDeclaration)
  | declaration (d : Declaration)
  | assignment (loc : Position) (target value : Expr)
  | expression (loc : Position) (value : Expr)

structure ExportSpecifier where
  loc : Position
  inner : String
  exported : String
deriving DecidableEq, Repr

structure NamedExports where
  loc : Position
  specifiers : List ExportSpecifier
  source : Option Text
  kind : ImportKind

inductive DefaultExport where
  | class_ (c : ClassDeclaration)
  | function (f : FunctionDeclaration)
  | expression (e : Expr)

inductive Item where
  | statement (s : Statement)
  | exportNamed (e : NamedExports)
  | exportAll (loc : Position) (source : Text)
  | exportDefault (loc : Position) (d : DefaultExport)
  | exportDeclaration (loc : Position) (d : Declaration)

structure Module where
  items : List Item
  file : Option String

namespace Item

def class? : Item → Option ClassDeclaration
  | statement (.declaration (.class_ c)) => some c
  | exportDefault _ (.class_ c) => some c
  | exportDeclaration _ (.class_ c) => some c
  | _ => none

end Item

def Module.classes (m : Module) : List ClassDeclaration :=
  m.items.filterMap Item.class?

end PropTables
