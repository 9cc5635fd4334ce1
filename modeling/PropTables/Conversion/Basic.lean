import PropTables.Conversion.Options
import PropTables.Library.Resolve
import PropTables.Validator.Literal

/-!
Where a conversion stands, and the pieces that its rules put together.
-/

namespace PropTables

structure Setting where
  options : ConvertOptions
  vocabulary : Vocabulary
  library : Library

/-- The place of a type. Depth zero is that of the table itself; a field value is the type directly
behind a key; the replacement is the name under which a class is known in the origin, the file that
the table is made for. -/
structure Context where
  scope : Scope
  depth : Int
  isFieldValue : Bool
  replacement : Option String
  origin : Option String

namespace Context

def nested (c : Context) : Context :=
  { c with isFieldValue := false, replacement := none }

@[simp] theorem nested_nested (c : Context) : c.nested.nested = c.nested := rfl

def fieldValue (c : Context) : Context :=
  { c with depth := c.depth + 1, isFieldValue := true, replacement := none }

def spread (c : Context) : Context :=
  { c.nested with depth := 0 }

def indexed (c : Context) : Context :=
  { c.nested with depth := c.depth + 1 }

def body (c : Context) (params : List TypeParameter) : Context :=
  { c with scope := c.scope.root.withParams params, replacement := none }

def fail (c : Context) (f : ConversionFault) (loc : Position) : Traced α :=
  .fail f loc c.scope.file

end Context

structure Use where
  loc : Position
  name : String

namespace Converted

def required (v : Validator) : Converted := ⟨.required, v⟩
def optional (v : Validator) : Converted := ⟨.optional, v⟩

end Converted

namespace Vocabulary

def member (v : Vocabulary) (attr : String) : Validator :=
  (Validator.named v.namespaceName).access [attr]

def call (v : Vocabulary) (attr : String) (arg : Validator) : Validator :=
  (v.member attr).apply [arg]

def oneOf (v : Vocabulary) (values : List Validator) : Validator :=
  v.call "oneOf" (.array values .none)

def oneOfType (v : Vocabulary) (types : List Validator) : Validator :=
  v.call "oneOfType" (.array types .none)

def allOf (v : Vocabulary) (types : List Validator) : Validator :=
  (Validator.named v.allName).apply types

def primitive (v : Vocabulary) : Primitive → Validator
  | .any | .mixed => v.member "any"
  | .number => v.member "number"
  | .boolean => v.member "bool"
  | .string => v.member "string"
  | .null => v.oneOf [.null]
  | .void => v.oneOf [.undefined]

end Vocabulary

namespace Field

def stripRequired (f : Field Validator) : Field Validator :=
  { f with value := f.value.stripRequired }

def surround (n : Notes) : List (Field Validator) → List (Field Validator)
  | [] => []
  | [f] => [{ f with notes := (f.notes.before n.leading).after n.trailing }]
  | f :: fs =>
    { f with notes := f.notes.before n.leading } ::
      (fs.dropLast ++
        (fs.getLast?.map fun l => { l with notes := l.notes.after n.trailing }).toList)

end Field

end PropTables
