import PropTables.Conversion.Convert

/-!
Conversion of any part of a module. A type converts, and so does an indexer; other parts have an
error of their own.
-/

namespace PropTables

inductive Node where
  | type (t : TypeExpr)
  | member (m : Member TypeExpr)
  | indexer (i : Indexer TypeExpr)
  | call (c : CallSignature TypeExpr)
  | other (form : String) (loc : Position)

def Primitive.kindName : Primitive → String
  | any => "any"
  | mixed => "mixed"
  | number => "number"
  | boolean => "boolean"
  | string => "string"
  | null => "null_literal"
  | void => "void"

def TypeExpr.kindName : TypeExpr → String
  | primitive _ p => p.kindName
  | number .. => "number_literal"
  | boolean .. => "boolean_literal"
  | string .. => "string_literal"
  | function .. => "function"
  | nullable .. => "nullable"
  | array .. => "array"
  | tuple .. => "tuple"
  | object _ => "object"
  | reference _ _ _ (_ :: _) => "generic"
  | reference _ [] _ [] => "type_identifier"
  | reference _ (_ :: _) _ [] => "qualified_type_identifier"
  | union .. => "union"
  | intersection .. => "intersection"

namespace Node

def loc : Node → Position
  | type t => t.loc
  | member (.property p) => p.loc
  | member (.spread s) => s.loc
  | indexer i => i.loc
  | call c => c.loc
  | other _ p => p

def kindName : Node → String
  | type t => t.kindName
  | member (.property _) => "object_property"
  | member (.spread _) => "spread_property"
  | indexer _ => "object_indexer"
  | call _ => "object_call_property"
  | other form _ => form

def type? : Node → Option TypeExpr
  | type t => some t
  | indexer i => some i.value
  | member _ | call _ | other .. => none

end Node

namespace Setting

def convertNode (s : Setting) (n : Node) (c : Context) : Traced Converted :=
  match n with
  | .type t => s.convertType t c
  | .member (.property p) => c.fail .propertyAlone p.loc
  | .member (.spread p) => c.fail .spreadAlone p.loc
  | .indexer i => s.convertIndexer (s.follow (s.referenceBound c)) i c
  | .call k => c.fail .callSignature k.loc
  | .other form loc => c.fail (.noConversion form) loc

def convertFields (s : Setting) (n : Node) (c : Context) : Traced (List (Field Validator)) :=
  match n with
  | .member m => s.convertMember (s.follow (s.referenceBound c)) m c
  | n => c.fail (.noFields n.kindName) n.loc

end Setting

end PropTables
