import PropTables.Conversion.Node

/-!
The checks on the way of a conversion. A binding is kept with its kind, by which a conversion goes on,
and its node is checked to be one of that kind; what is encoded is checked to be a literal.
-/

namespace PropTables

inductive BindingKind where
  | declaration
  | import_
  | variable_
  | parameter
deriving DecidableEq, Repr

def Referent.kind : Referent → BindingKind
  | import_ _ => .import_
  | variable_ _ => .variable_
  | parameter _ => .parameter
  | _ => .declaration

def Scope.kind (s : Scope) (name : String) : BindingKind :=
  match s.inner.findSome? (·.lookup name), s.base.lookup name with
  | some _, _ => .parameter
  | none, some b => b.referent.kind
  | none, none => .declaration

/-- What the checks guard against. -/
inductive Mishap where
  | notLiteral (t : TypeExpr)
  | otherNode (kind : BindingKind) (r : Referent)
  | unknownDeclaration (r : Referent)

def TypeExpr.isLiteral : TypeExpr → Bool
  | primitive _ .null | primitive _ .void | number .. | boolean .. | string .. => true
  | _ => false

namespace Setting

variable (s : Setting) (mishap : Mishap → Failure)

def encode (t : TypeExpr) (c : Context) : Traced Validator := do
  s.requireAllowed t c
  match t.literal? with
  | some v => pure v
  | none => .ofResult (.error (mishap (.notLiteral t)))

def convertLiterals (types : List TypeExpr) (c : Context) : Traced Converted := do
  let values ← types.mapM (s.encode mishap · c)
  return .required (s.vocabulary.oneOf values)

def followChecked : (bound : Nat) → BindingKind → Follow
  | 0, _, _, _, _ => .abort .endless
  | bound + 1, kind, ⟨referent, file⟩, use, c =>
    let lookup : Follow := fun b use c =>
      followChecked bound (c.scope.kind use.name) b use c
    let resolved : Follow := fun b => followChecked bound b.referent.kind b
    match kind, referent with
    | .import_, .import_ i => s.followImport resolved i file use c
    | .parameter, .parameter p => c.fail (.typeParameter p.name) use.loc
    | .variable_, .variable_ v => c.fail (.variable_ v.name) use.loc
    | .declaration, .typeAlias a => s.convert lookup a.right (c.body a.params)
    | .declaration, .interface i => s.convertObject lookup i.body (c.body i.params)
    | .declaration, .class_ k => s.convertClass k file use c
    | .declaration, .function f => c.fail (.function f.name) use.loc
    | .declaration, r => .ofResult (.error (mishap (.unknownDeclaration r)))
    | kind, r => .ofResult (.error (mishap (.otherNode kind r)))

def lookupChecked (bound : Nat) : Follow := fun b use c =>
  s.followChecked mishap bound (c.scope.kind use.name) b use c

def convertNodeChecked (n : Node) (c : Context) : Traced Converted :=
  let follow := s.lookupChecked mishap (s.referenceBound c)
  match n with
  | .type t => s.convert follow t c
  | .indexer i => s.convertIndexer follow i c
  | n => s.convertNode n c

end Setting

end PropTables
