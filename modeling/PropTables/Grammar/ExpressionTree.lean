import PropTables.Grammar.TypeTree
import PropTables.Syntax.Expression

/-!
Expressions and parameters as they are read. Initial values of parameters and bodies of functions
are read and not built.
-/

namespace PropTables

abbrev ExprTree := Build Expr

structure PathTree where
  attrs : List Token
  calls : List (Position × List ExprTree)

namespace PathTree

def member (value : Expr) (attr : Token) : Expr :=
  .member attr.start value attr.text

def dotted (head : Token) (attrs : List Token) : Expr :=
  attrs.foldl member (.name head.start head.text)

def build (head : Token) (p : PathTree) : ExprTree :=
  p.calls.foldlM (fun func c => return .call c.1 func (← c.2.mapM id)) (dotted head p.attrs)

end PathTree

structure ParamTree where
  loc : Position
  name : Option Token
  ascription : Option TypeTree
  optional : Bool
  rest : Bool

namespace ParamTree

def build (p : ParamTree) : Build Param := do
  let ascription ← p.ascription.mapM (·.build)
  return ⟨p.loc, p.name.map (·.text), ascription, p.optional, p.rest⟩

end ParamTree

namespace ExprTree

def string (t : Token) : ExprTree :=
  return .string t.start (← Build.stringValue t) t.text

def number (t : Token) : ExprTree :=
  return .number t.start (← Build.numberValue t) t.text

def template (t : Token) : ExprTree :=
  return .template t.start t.text

def array (loc : Position) (items : List ExprTree) : ExprTree :=
  return .array loc (← items.mapM id)

def object (loc : Position) (entries : List (Build (ObjectEntry Expr))) : ExprTree :=
  return .object loc (← entries.mapM id)

def arrow (loc : Position) (params : List ParamTree) : ExprTree :=
  return .arrow loc (← params.mapM ParamTree.build)

def arrowOfName (name : Token) : ExprTree :=
  arrow name.start [⟨name.start, some name, none, false, false⟩]

def entry (key : Token) (value : ExprTree) : Build (ObjectEntry Expr) := do
  let text ← Build.keyText key
  return .keyed key.start text (← value)

def shorthand (name : Token) : Build (ObjectEntry Expr) :=
  return .keyed name.start (Text.ofString name.text) (.name name.start name.text)

def spread (ellipsis : Token) (value : ExprTree) : Build (ObjectEntry Expr) :=
  return .spread ellipsis.start (← value)

end ExprTree

end PropTables
