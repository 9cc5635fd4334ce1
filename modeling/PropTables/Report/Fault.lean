import PropTables.Library.Basic
import PropTables.Report.Diagnostic

/-!
Why a type cannot be converted, and where it says so.
-/

namespace PropTables

inductive ErrorKind where
  | unsupportedType
  | missingReference
  | mixedShape
  | unsupportedCallSignature
  | unsupportedIntersection
  | misplacedEscapeHatch
  | typeofImport
  | qualifiedIdentifier
  | missingType
deriving DecidableEq, Repr

def ErrorKind.code : ErrorKind → String
  | unsupportedType => "UnsupportedTypeKind"
  | missingReference => "MissingReference"
  | mixedShape => "MixedShapeError"
  | unsupportedCallSignature => "UnsupportedCallSignatureError"
  | unsupportedIntersection => "UnsupportedTopLevelIntersectionError"
  | misplacedEscapeHatch => "IllegalEscapeHatchPlacement"
  | typeofImport => "TypeofImportUnsupported"
  | qualifiedIdentifier => "QualifiedIdentifierUnsupported"
  | missingType => "MissingTypeAnnotation"

structure ConversionError where
  kind : ErrorKind
  message : String
  span : Span
deriving DecidableEq, Repr

namespace ConversionError

def isResolution (e : ConversionError) : Bool :=
  e.kind = .missingReference

def text (e : ConversionError) : String :=
  e.span.describe ++ ": [" ++ e.kind.code ++ "] " ++ e.message

def toDiagnostic (e : ConversionError) : Diagnostic :=
  ⟨e.message, some e.kind.code, some "convert", "error", e.span, []⟩

end ConversionError

inductive Disallowable where
  | null
  | void
  | maybe
deriving DecidableEq, Repr

inductive ConversionFault where
  | disallowed (d : Disallowable)
  | noConversion (node : String)
  | noFields (node : String)
  | propertyAlone
  | spreadAlone
  | indexerWithMembers
  | severalIndexers
  | callSignature
  | spreadOfOther
  | unknownGeneric (name : String)
  | argumentCount (name : String) (expected got : Nat)
  | misplacedDefault (name : String)
  | qualified (name : String)
  | undeclared (name : String)
  | typeParameter (name : String)
  | variable_ (name : String)
  | function (name : String)
  | foreignClass (name : String) (file origin : Option String)
  | intersectionOfOther
  | noTable
  | typeofImport (name : String)
  | namespaceImport (name : String)
  | unloadable (f : LoadFault)
  | notExported (source : Text) (name : String)
  | exportUndeclared (source : Text) (exported inner : String)
  | missingType (field : String)

namespace ConversionFault

def kind : ConversionFault → ErrorKind
  | indexerWithMembers | severalIndexers => .mixedShape
  | callSignature => .unsupportedCallSignature
  | misplacedDefault _ => .misplacedEscapeHatch
  | qualified _ => .qualifiedIdentifier
  | undeclared _ | foreignClass .. | unloadable _ | notExported .. | exportUndeclared .. =>
    .missingReference
  | intersectionOfOther => .unsupportedIntersection
  | typeofImport _ => .typeofImport
  | missingType _ => .missingType
  | _ => .unsupportedType

def fileName (file : Option String) : String :=
  file.getD "None"

def message : ConversionFault → String
  | disallowed .null => "null types unsupported"
  | disallowed .void => "void types unsupported"
  | disallowed .maybe => "maybe types unsupported"
  | noConversion node => "no conversion for " ++ node
  | noFields node => node ++ " is not a field-producing member"
  | propertyAlone => "an object property only converts inside its object type"
  | spreadAlone => "a spread only converts inside its object type"
  | indexerWithMembers => "an object type cannot mix named properties with an indexer"
  | severalIndexers => "an object type can have only one indexer"
  | callSignature => "call signatures in object types have no runtime validator"
  | spreadOfOther => "only object types can be spread"
  | unknownGeneric name => "unsupported generic type " ++ name ++ "<...>"
  | argumentCount name expected got =>
    name ++ " expects " ++ toString expected ++ " type argument" ++
      (if expected = 1 then "" else "s") ++ ", got " ++ toString got
  | misplacedDefault name =>
    name ++ "<T> may only be used directly as the type of an object property"
  | qualified name => "qualified type " ++ name ++ " has no runtime validator"
  | undeclared name => "cannot find a declaration for " ++ quoted name
  | typeParameter name => "type parameter " ++ quoted name ++ " has no runtime validator"
  | variable_ name => quoted name ++ " is a value, not a type"
  | function name => quoted name ++ " is a function, not a type"
  | foreignClass name file origin =>
    "class " ++ quoted name ++ " from " ++ fileName file ++ " is not imported into " ++
      fileName origin ++ "; import " ++ name ++ " into " ++ fileName origin ++
      " so instanceOf can reference it"
  | intersectionOfOther => "every member of a top-level intersection must be an object type"
  | noTable => "a validator table needs an object type (or an intersection of object types)"
  | typeofImport name =>
    "\x60import typeof " ++ name ++
      "\x60 names the type of a value; import the type itself instead"
  | namespaceImport name => "namespace import " ++ quoted name ++ " cannot be used as a type"
  | unloadable f => f.message
  | notExported source name =>
    "module " ++ source.quoted ++ " has no export named " ++ quoted name
  | exportUndeclared source exported inner =>
    "export " ++ quoted exported ++ " of " ++ source.quoted ++ " refers to " ++ quoted inner ++
      ", which is not declared there"
  | missingType field => "React component " ++ field ++ " must have a type annotation"

def error (f : ConversionFault) (loc : Position) (file : Option String) : ConversionError :=
  ⟨f.kind, f.message, .atPosition loc file⟩

end ConversionFault

end PropTables
