import PropTables.Number.Basic
import PropTables.Source.Position
import PropTables.Syntax.Notes
import PropTables.Text.CodePoint

/-!
Type annotations. The parts of a type that hold further types are structures over the type of those
parts, so that they can be named and read on their own.
-/

namespace PropTables

inductive Primitive where
  | any | mixed | number | boolean | string | null | void
deriving DecidableEq, Repr

structure FunctionParam (T : Type) where
  loc : Position
  name : Option String
  type : T
  optional : Bool
  rest : Bool

/-- A named member of an object type. The key is kept as it is meant and as it is written. -/
structure Property (T : Type) where
  loc : Position
  key : Text
  written : String
  value : T
  optional : Bool
  quoted : Bool
  notes : Notes

structure Spread (T : Type) where
  loc : Position
  argument : T
  notes : Notes

inductive Member (T : Type) where
  | property (p : Property T)
  | spread (s : Spread T)

structure Indexer (T : Type) where
  loc : Position
  name : Option String
  key : T
  value : T

structure CallSignature (T : Type) where
  loc : Position
  params : List (FunctionParam T)
  result : T

/-- An object type. The leading comments are those between the annotation's start and the brace. -/
structure ObjectType (T : Type) where
  loc : Position
  members : List (Member T)
  indexers : List (Indexer T)
  calls : List (CallSignature T)
  exact : Bool
  leading : List String

/-- A reference by name has qualifiers and arguments, both of which may be missing. -/
inductive TypeExpr where
  | primitive (loc : Position) (p : Primitive)
  | number (loc : Position) (value : Number) (raw : String)
  | boolean (loc : Position) (value : Bool)
  | string (loc : Position) (value : Text) (raw : String)
  | function (loc : Position) (params : List (FunctionParam TypeExpr)) (result : TypeExpr)
  | nullable (loc : Position) (inner : TypeExpr)
  | array (loc : Position) (element : TypeExpr)
  | tuple (loc : Position) (elements : List TypeExpr)
  | object (o : ObjectType TypeExpr)
  | reference (loc : Position) (qualifiers : List String) (name : String) (args : List TypeExpr)
  | union (loc : Position) (types : List TypeExpr)
  | intersection (loc : Position) (types : List TypeExpr)

namespace TypeExpr

def loc : TypeExpr → Position
  | primitive p _ | number p _ _ | boolean p _ | string p _ _ | function p _ _ | nullable p _
  | array p _ | tuple p _ | reference p _ _ _ | union p _ | intersection p _ => p
  | object o => o.loc

def builtin? (loc : Position) (name : String) : Option TypeExpr :=
  match name with
  | "true" => some (.boolean loc true)
  | "false" => some (.boolean loc false)
  | "any" => some (.primitive loc .any)
  | "mixed" => some (.primitive loc .mixed)
  | "number" => some (.primitive loc .number)
  | "string" => some (.primitive loc .string)
  | "boolean" | "bool" => some (.primitive loc .boolean)
  | "null" => some (.primitive loc .null)
  | "void" => some (.primitive loc .void)
  | _ => none

def withLeading (leading : List String) : TypeExpr → TypeExpr
  | object o => object { o with leading }
  | t => t

end TypeExpr

structure TypeParameter where
  loc : Position
  name : String
deriving DecidableEq, Repr

end PropTables
