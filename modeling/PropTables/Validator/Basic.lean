import PropTables.Number.Basic
import PropTables.Syntax.Notes
import PropTables.Text.CodePoint

/-!
Validator expressions: the tables that are generated. They are expressions over the names of a
validator library, with comments on every node.
-/

namespace PropTables

inductive Constant where
  | null
  | boolean (b : Bool)
  | number (n : Number)
  | text (t : Text)
deriving DecidableEq, Repr

structure Field (V : Type) where
  key : String
  value : V
  quoted : Bool
  notes : Notes

inductive Validator where
  | identifier (name : String) (notes : Notes)
  | member (value : Validator) (attr : String) (notes : Notes)
  | call (func : Validator) (args : List Validator) (notes : Notes)
  | literal (value : Constant) (raw : Option String) (notes : Notes)
  | array (items : List Validator) (notes : Notes)
  | object (fields : List (Field Validator)) (notes : Notes)

namespace Validator

def notes : Validator → Notes
  | identifier _ n | member _ _ n | call _ _ n | literal _ _ n | array _ n | object _ n => n

def withNotes (n : Notes) : Validator → Validator
  | identifier name _ => identifier name n
  | member value attr _ => member value attr n
  | call func args _ => call func args n
  | literal value raw _ => literal value raw n
  | array items _ => array items n
  | object fields _ => object fields n

def named (name : String) : Validator :=
  identifier name .none

def access (value : Validator) (path : List String) : Validator :=
  path.foldl (fun v attr => member v attr .none) value

def apply (func : Validator) (args : List Validator) : Validator :=
  call func args .none

def requiredMark : String := "isRequired"

def isRequired : Validator → Bool
  | member _ attr _ => attr == requiredMark
  | _ => false

def require (v : Validator) : Validator :=
  member v requiredMark .none

def stripRequired : Validator → Validator
  | member inner attr notes =>
    if attr == requiredMark then
      if notes.isEmpty then inner else inner.withNotes (inner.notes.absorb notes)
    else member inner attr notes
  | v => v

@[simp] theorem isRequired_require (v : Validator) : v.require.isRequired = true := by
  simp [require, isRequired]

@[simp] theorem stripRequired_require (v : Validator) : v.require.stripRequired = v := by
  simp [require, stripRequired, Notes.none, Notes.isEmpty]

end Validator

/-- Whether a converted type may be marked as required by the field that holds it. -/
inductive Requirement where
  | required
  | optional
deriving DecidableEq, Repr

structure Converted where
  requirement : Requirement
  expr : Validator

end PropTables
