import PropTables.Grammar.Build
import PropTables.Proofs.Plain
import PropTables.Proofs.TokenTexts

/-! Types as they are written, and the types that can be written: their names, literals and keys are
tokens, and what they say is what these tokens mean. -/

namespace PropTables

open Spelling

def Primitive.spelling : Primitive → String
  | any => "any"
  | mixed => "mixed"
  | number => "number"
  | boolean => "boolean"
  | string => "string"
  | null => "null"
  | void => "void"

def commas (texts : List String) : String :=
  ", ".intercalate texts

def argumentsText (args : List String) : String :=
  if args.isEmpty then "" else "<" ++ commas args ++ ">"

section Parts

variable {T : Type}

def label (name : Option String) (optional : Bool) : String :=
  match name with
  | some n => n ++ if optional then "?: " else ": "
  | none => ""

def FunctionParam.text (p : FunctionParam T) (type : String) : String :=
  (if p.rest then "..." else "") ++ label p.name p.optional ++ type

def Indexer.text (i : Indexer T) (key value : String) : String :=
  "[" ++ label i.name false ++ key ++ "]: " ++ value

def Property.text (p : Property T) (value : String) : String :=
  label (some p.written) p.optional ++ value

def CallSignature.text (params : List String) (result : String) : String :=
  "(" ++ commas params ++ "): " ++ result

def ObjectType.text (o : ObjectType T) (members : List String) : String :=
  if o.exact then "\x7b| " ++ commas members ++ " |\x7d" else "\x7b " ++ commas members ++ " \x7d"

end Parts

namespace TypeExpr

/-- Such a type stands in parentheses where it is an operand of `[]`, `?`, `&` or `|`. -/
def isLoose : TypeExpr → Bool
  | function .. | nullable .. | union .. | intersection .. => true
  | _ => false

def operandText (t : TypeExpr) (text : String) : String :=
  if t.isLoose then "(" ++ text ++ ")" else text

mutual

def print : TypeExpr → String
  | primitive _ p => p.spelling
  | number _ _ raw | string _ _ raw => raw
  | boolean _ value => if value then "true" else "false"
  | function _ params result => "(" ++ commas (printParams params) ++ ") => " ++ result.print
  | nullable _ t => "?" ++ t.operandText t.print
  | array _ t => t.operandText t.print ++ "[]"
  | tuple _ ts => "[" ++ commas (printAll ts) ++ "]"
  | object ⟨loc, members, indexers, calls, exact, leading⟩ =>
    ObjectType.text ⟨loc, members, indexers, calls, exact, leading⟩
      (printMembers members ++ printIndexers indexers ++ printCalls calls)
  | reference _ qualifiers name args =>
    ".".intercalate (qualifiers ++ [name]) ++ argumentsText (printAll args)
  | union _ ts => " | ".intercalate (printOperands ts)
  | intersection _ ts => " & ".intercalate (printOperands ts)

def printAll : List TypeExpr → List String
  | [] => []
  | t :: ts => t.print :: printAll ts

def printOperands : List TypeExpr → List String
  | [] => []
  | t :: ts => t.operandText t.print :: printOperands ts

def printParams : List (FunctionParam TypeExpr) → List String
  | [] => []
  | ⟨loc, name, type, optional, rest⟩ :: ps =>
    FunctionParam.text ⟨loc, name, type, optional, rest⟩ type.print :: printParams ps

def printMembers : List (Member TypeExpr) → List String
  | [] => []
  | .property ⟨loc, key, written, value, optional, quoted, notes⟩ :: ms =>
    Property.text ⟨loc, key, written, value, optional, quoted, notes⟩ value.print :: printMembers ms
  | .spread ⟨_, argument, _⟩ :: ms => ("..." ++ argument.print) :: printMembers ms

def printIndexers : List (Indexer TypeExpr) → List String
  | [] => []
  | ⟨loc, name, key, value⟩ :: is =>
    Indexer.text ⟨loc, name, key, value⟩ key.print value.print :: printIndexers is

def printCalls : List (CallSignature TypeExpr) → List String
  | [] => []
  | ⟨_, params, result⟩ :: ks =>
    CallSignature.text (printParams params) result.print :: printCalls ks

end

end TypeExpr

section Parts

def FunctionParam.print (p : FunctionParam TypeExpr) : String :=
  p.text p.type.print

def Member.print : Member TypeExpr → String
  | .property p => p.text p.value.print
  | .spread s => "..." ++ s.argument.print

def Indexer.print (i : Indexer TypeExpr) : String :=
  i.text i.key.print i.value.print

def CallSignature.print (k : CallSignature TypeExpr) : String :=
  CallSignature.text (k.params.map FunctionParam.print) k.result.print

def TypeExpr.printOperand (t : TypeExpr) : String :=
  t.operandText t.print

end Parts

namespace TypeExpr

variable {loc : Position}

theorem printAll_eq (ts : List TypeExpr) : printAll ts = ts.map print := by
  induction ts with
  | nil => rfl
  | cons t ts ih => rw [printAll, ih, List.map_cons]

theorem printOperands_eq (ts : List TypeExpr) : printOperands ts = ts.map printOperand := by
  induction ts with
  | nil => rfl
  | cons t ts ih => rw [printOperands, ih, List.map_cons, printOperand]

theorem printParams_eq (ps : List (FunctionParam TypeExpr)) :
    printParams ps = ps.map FunctionParam.print := by
  induction ps with
  | nil => rfl
  | cons p ps ih => rw [printParams, ih]; rfl

theorem printMembers_eq (ms : List (Member TypeExpr)) : printMembers ms = ms.map Member.print := by
  induction ms with
  | nil => rfl
  | cons m ms ih => cases m <;> rw [printMembers, ih] <;> rfl

theorem printIndexers_eq (is : List (Indexer TypeExpr)) :
    printIndexers is = is.map Indexer.print := by
  induction is with
  | nil => rfl
  | cons i is ih => rw [printIndexers, ih]; rfl

theorem printCalls_eq (ks : List (CallSignature TypeExpr)) :
    printCalls ks = ks.map CallSignature.print := by
  induction ks with
  | nil => rfl
  | cons k ks ih => rw [printCalls, ih, printParams_eq]; rfl

theorem print_function (ps : List (FunctionParam TypeExpr)) (r : TypeExpr) :
    print (function loc ps r) = "(" ++ commas (ps.map FunctionParam.print) ++ ") => " ++ r.print := by
  rw [print, printParams_eq]

theorem print_tuple (ts : List TypeExpr) :
    print (tuple loc ts) = "[" ++ commas (ts.map print) ++ "]" := by
  rw [print, printAll_eq]

theorem print_object (o : ObjectType TypeExpr) :
    print (object o) = o.text (o.members.map Member.print ++ o.indexers.map Indexer.print ++
      o.calls.map CallSignature.print) := by
  obtain ⟨loc, members, indexers, calls, exact, leading⟩ := o
  rw [print, printMembers_eq, printIndexers_eq, printCalls_eq]

theorem print_reference (qs : List String) (name : String) (args : List TypeExpr) :
    print (reference loc qs name args) =
      ".".intercalate (qs ++ [name]) ++ argumentsText (args.map print) := by
  rw [print, printAll_eq]

theorem print_union (ts : List TypeExpr) :
    print (union loc ts) = " | ".intercalate (ts.map printOperand) := by
  rw [print, printOperands_eq]

theorem print_intersection (ts : List TypeExpr) :
    print (intersection loc ts) = " & ".intercalate (ts.map printOperand) := by
  rw [print, printOperands_eq]

end TypeExpr

section Spelled

variable {T : Type}

structure FunctionParam.Spelled (p : FunctionParam T) : Prop where
  name : ∀ n ∈ p.name, IsToken .name n
  optional : p.optional = true → p.name.isSome ∧ p.rest = false

structure Property.Spelled (names : CharacterNames) (p : Property T) : Prop where
  quoted : p.quoted = true →
    IsToken .string p.written ∧ Text.ofLiteral? names p.written = some p.key
  bare : p.quoted = false → IsName p.written ∧ p.key = Text.ofString p.written

def Member.Spelled (names : CharacterNames) : Member T → Prop
  | .property p => p.Spelled names
  | .spread _ => True

def Member.type : Member T → T
  | .property p => p.value
  | .spread s => s.argument

variable (names : CharacterNames) in
/-- The types that can be written. -/
inductive TypeExpr.Spelled : TypeExpr → Prop
  | primitive : Spelled (.primitive start p)
  | boolean : Spelled (.boolean start value)
  | number (h : IsToken .number raw) (hv : Number.ofLiteral? raw = some value) :
      Spelled (.number start value raw)
  | string (h : IsToken .string raw) (hv : Text.ofLiteral? names raw = some value) :
      Spelled (.string start value raw)
  | nullable (h : Spelled t) : Spelled (.nullable start t)
  | array (h : Spelled t) : Spelled (.array start t)
  | tuple (h : ∀ t ∈ ts, Spelled t) : Spelled (.tuple start ts)
  | union (hlen : 2 ≤ ts.length) (h : ∀ t ∈ ts, Spelled t) : Spelled (.union start ts)
  | intersection (hlen : 2 ≤ ts.length) (h : ∀ t ∈ ts, Spelled t) :
      Spelled (.intersection start ts)
  | function (hps : ∀ p ∈ ps, p.Spelled) (h : ∀ p ∈ ps, Spelled p.type) (hr : Spelled r) :
      Spelled (.function start ps r)
  | reference (hqs : ∀ q ∈ qs, IsToken .name q) (hname : IsToken .name name)
      (hbare : qs = [] → args = [] → TypeExpr.builtin? start name = none)
      (h : ∀ t ∈ args, Spelled t) : Spelled (.reference start qs name args)
  | object (hms : ∀ m ∈ o.members, m.Spelled names) (hmembers : ∀ m ∈ o.members, Spelled m.type)
      (his : ∀ i ∈ o.indexers, ∀ n ∈ i.name, IsToken .name n)
      (hkeys : ∀ i ∈ o.indexers, Spelled i.key) (hvalues : ∀ i ∈ o.indexers, Spelled i.value)
      (hks : ∀ k ∈ o.calls, ∀ p ∈ k.params, p.Spelled)
      (hparams : ∀ k ∈ o.calls, ∀ p ∈ k.params, Spelled p.type)
      (hresults : ∀ k ∈ o.calls, Spelled k.result) : Spelled (.object o)

end Spelled

end PropTables
