import PropTables.Source.Position

/-!
What can be wrong with a source text.
-/

namespace PropTables

inductive LiteralFault where
  | malformedString
  | oversizedInteger
deriving DecidableEq, Repr

def LiteralFault.message : LiteralFault → String
  | malformedString => "a string literal holds a malformed escape, a bare carriage return or a null"
  | oversizedInteger => "an integer literal has too many digits"

/-- A phrase that the grammar admits and that has no meaning. -/
inductive StructureFault where
  | defaultWithoutName
  | classWithoutName
  | functionWithoutResult
deriving DecidableEq, Repr

def StructureFault.message : StructureFault → String
  | defaultWithoutName => "\x60default\x60 must be imported under a local name"
  | classWithoutName => "only \x60export default class\x60 may omit the class name"
  | functionWithoutResult => "function type is missing its \x60=> ReturnType\x60"

/-- Why a text is no module. The end of the text is reported at its last token. -/
inductive Refusal where
  | unexpectedCharacter (c : Char) (loc : Position)
  | unexpectedToken (text : String) (loc : Position)
  | unexpectedEnd (loc : Position)
  | structure_ (fault : StructureFault) (loc : Position)
deriving DecidableEq, Repr

namespace Refusal

def loc : Refusal → Position
  | unexpectedCharacter _ p | unexpectedToken _ p | unexpectedEnd p | structure_ _ p => p

def message (r : Refusal) : String :=
  let unexpected (what : String) : String :=
    "unexpected " ++ what ++ " at line " ++ toString r.loc.line ++ ", column " ++
      toString r.loc.column
  match r with
  | unexpectedCharacter .. => unexpected "character"
  | unexpectedToken .. => unexpected "token"
  | unexpectedEnd .. => unexpected "end of input"
  | structure_ fault _ => fault.message

end Refusal

inductive SourceFault where
  | refused (r : Refusal)
  | literal (f : LiteralFault)
deriving DecidableEq, Repr

end PropTables
