import PropTables.Syntax.Type

/-!
Expressions: initial values, superclasses, statements and default exports. Bodies of functions are
not kept.
-/

namespace PropTables

structure Param where
  loc : Position
  name : Option String
  ascription : Option TypeExpr
  optional : Bool
  rest : Bool

inductive ObjectEntry (E : Type) where
  | keyed (loc : Position) (key : Text) (value : E)
  | spread (loc : Position) (value : E)

inductive Expr where
  | name (loc : Position) (ident : String)
  | member (loc : Position) (value : Expr) (attr : String)
  | call (loc : Position) (func : Expr) (args : List Expr)
  | number (loc : Position) (value : Number) (raw : String)
  | string (loc : Position) (value : Text) (raw : String)
  | template (loc : Position) (raw : String)
  | object (loc : Position) (entries : List (ObjectEntry Expr))
  | array (loc : Position) (items : List Expr)
  | arrow (loc : Position) (params : List Param)

end PropTables
