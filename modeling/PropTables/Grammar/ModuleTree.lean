import PropTables.Grammar.ExpressionTree
import PropTables.Syntax.Module

/-!
Items of a module as they are read.
-/

namespace PropTables

structure AscriptionTree where
  start : Position
  type : TypeTree

structure ClassTree where
  loc : Position
  name : Option Token
  params : List TypeParameter
  superclass : Option (Expr × Option (List TypeTree))
  body : List (Build ClassMember)

structure AliasTree where
  name : Token
  params : List TypeParameter
  right : TypeTree

inductive ImportTree where
  | default_ (name : Token)
  | namespace_ (name : Token)
  | named (loc : Position) (kind : Option Token) (imported : Token) (renamed : Option Token)

structure ExportClauseTree where
  specifiers : List ExportSpecifier
  source : Option Token

namespace TypeParameter

def ofToken (t : Token) : TypeParameter := ⟨t.start, t.text⟩

end TypeParameter

namespace ClassTree

def property (loc : Position) (isStatic : Bool) (key : Token) (optional : Bool)
    (ascription : Option AscriptionTree) (init : Option ExprTree) : Build ClassMember := do
  let text ← Build.keyText key
  let ascription ← ascription.mapM fun a => a.type.buildAnnotated a.start
  let value ← init.mapM id
  return .property ⟨loc, text, ascription, value.map .source, isStatic, optional, false⟩

def method (loc : Position) (isStatic : Bool) (key : Token) (params : List ParamTree)
    (result : Option AscriptionTree) : Build ClassMember := do
  let text ← Build.keyText key
  let params ← params.mapM ParamTree.build
  let result ← result.mapM fun a => a.type.build
  return .method ⟨loc, text, params, result, isStatic⟩

def build (c : ClassTree) : Build ClassDeclaration := do
  let superArgs ← (c.superclass.bind (·.2)).mapM fun args => args.mapM (·.build)
  let body ← c.body.mapM id
  return ⟨c.loc, c.name.map (·.text), c.params, c.superclass.map (·.1), superArgs, body⟩

def buildNamed (c : ClassTree) : Build ClassDeclaration :=
  if c.name.isNone then Build.structureFault .classWithoutName c.loc else c.build

end ClassTree

namespace AliasTree

def build (loc : Position) (a : AliasTree) : Build TypeAlias :=
  return ⟨loc, a.name.text, a.params, ← a.right.buildAnnotated loc⟩

end AliasTree

def buildInterface (loc : Position) (name : Token) (params : List TypeParameter)
    (body : ObjectTree) : Build InterfaceDeclaration :=
  return ⟨loc, name.text, params, ← body.build⟩

def buildFunction (loc : Position) (name : Token) (params : List ParamTree)
    (result : Option AscriptionTree) : Build FunctionDeclaration := do
  let params ← params.mapM ParamTree.build
  return ⟨loc, name.text, params, ← result.mapM fun a => a.type.build⟩

def buildDeclarator (name : Token) (ascription : Option AscriptionTree)
    (init : Option ExprTree) : Build VariableDeclarator := do
  let ascription ← ascription.mapM fun a => a.type.build
  return ⟨name.start, name.text, ascription, ← init.mapM id⟩

def VariableKind.ofToken (t : Token) : VariableKind :=
  match t.terminal with
  | .keyword .letWord => .let_
  | .keyword .varWord => .var
  | _ => .const

def buildVariables (word : Token) (declarators : List (Build VariableDeclarator)) :
    Build VariableDeclaration :=
  return ⟨word.start, .ofToken word, ← declarators.mapM id⟩

namespace ImportKind

def ofToken? (t : Option Token) : Option ImportKind :=
  t.map fun t => if t.terminal = .keyword .typeofWord then .typeof else .type

end ImportKind

namespace ImportTree

def build (source : Text) (kind : ImportKind) : ImportTree → Build ImportSpecifier
  | default_ name => return ⟨name.start, name.text, some "default", source, kind⟩
  | namespace_ name => return ⟨name.start, name.text, none, source, kind⟩
  | named loc own imported renamed => do
    let kind := (ImportKind.ofToken? own).getD kind
    match renamed with
    | some t => return ⟨loc, t.text, some imported.text, source, kind⟩
    | none =>
      if imported.terminal = .keyword .defaultWord then
        Build.structureFault .defaultWithoutName loc
      else return ⟨loc, imported.text, some imported.text, source, kind⟩

def buildAll (loc : Position) (kind : Option Token) (specifiers : List ImportTree)
    (source : Token) : Build Item := do
  let text ← Build.stringValue source
  let kind := (ImportKind.ofToken? kind).getD .value
  let specifiers ← specifiers.mapM (build text kind)
  return .statement (.import_ ⟨loc, text, kind, specifiers⟩)

end ImportTree

namespace ExportClauseTree

def specifier (loc : Position) (inner : Token) (exported : Option Token) : ExportSpecifier :=
  ⟨loc, inner.text, (exported.getD inner).text⟩

def build (loc : Position) (kind : ImportKind) (c : ExportClauseTree) : Build Item := do
  let source ← c.source.mapM Build.stringValue
  return .exportNamed ⟨loc, c.specifiers, source, kind⟩

end ExportClauseTree

namespace ItemTree

def declaration (d : Build Declaration) : Build Item :=
  return .statement (.declaration (← d))

def exported (loc : Position) (d : Build Declaration) : Build Item :=
  return .exportDeclaration loc (← d)

def exportedAll (loc : Position) (source : Token) : Build Item :=
  return .exportAll loc (← Build.stringValue source)

def exportedDefault (loc : Position) (d : Build DefaultExport) : Build Item :=
  return .exportDefault loc (← d)

def assignment (head : Token) (attrs : List Token) (value : ExprTree) : Build Item :=
  return .statement (.assignment head.start (PathTree.dotted head attrs) (← value))

def call (head : Token) (path : PathTree) : Build Item :=
  return .statement (.expression head.start (← path.build head))

end ItemTree

end PropTables
