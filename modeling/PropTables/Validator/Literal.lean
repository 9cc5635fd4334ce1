import PropTables.Syntax.Type
import PropTables.Validator.Basic

/-!
Literal types as the values that a validator compares with.
-/

namespace PropTables

namespace Validator

def null : Validator := literal .null (some "null") .none

def undefined : Validator := named "undefined"

def boolean (b : Bool) : Validator :=
  literal (.boolean b) (some (if b then "true" else "false")) .none

def number (n : Number) (raw : String) : Validator := literal (.number n) (some raw) .none

def string (t : Text) (raw : String) : Validator := literal (.text t) (some raw) .none

end Validator

namespace TypeExpr

def literal? : TypeExpr → Option Validator
  | primitive _ .null => some .null
  | primitive _ .void => some .undefined
  | boolean _ b => some (.boolean b)
  | number _ n raw => some (.number n raw)
  | string _ t raw => some (.string t raw)
  | _ => none

def notLiteral (form : String) : String :=
  "not a literal type: " ++ form

end TypeExpr

end PropTables
