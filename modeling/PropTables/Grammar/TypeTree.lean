import PropTables.Grammar.Build
import PropTables.Syntax.Type

/-!
Type annotations as they are read: operands and the marks between them. A tree knows where it starts
and how to build its type. Where marks group operands, the group starts at its first mark or
operand; a single operand is its own group and keeps its own start.
-/

namespace PropTables

structure TypeTree where
  start : Position
  build : Build TypeExpr

/-- What stands between two `&` or `|`: marks `?`, a type, and marks `[]`. -/
structure Operand where
  maybes : List Position
  start : Position
  base : Build TypeExpr
  arrays : Nat

/-- Operands between two `|`, with a mark `&` that may stand before them. -/
structure OperandGroup where
  lead : Option Position
  first : Operand
  others : List Operand

structure OperandSuffix where
  arrays : Nat
  others : List Operand
  groups : List OperandGroup

structure OperandChain where
  first : Operand
  others : List Operand
  groups : List OperandGroup

namespace Operand

def position (o : Operand) : Position :=
  o.maybes.head?.getD o.start

def build (o : Operand) : Build TypeExpr := do
  let t ← o.base
  return o.maybes.foldr .nullable (Nat.repeat (.array o.start) o.arrays t)

end Operand

namespace OperandChain

def ofBase (start : Position) (base : Build TypeExpr) (s : OperandSuffix) : OperandChain :=
  ⟨⟨[], start, base, s.arrays⟩, s.others, s.groups⟩

/-- A function type takes up everything after it, so its chain ends with it. -/
def single (start : Position) (base : Build TypeExpr) : OperandChain :=
  ofBase start base ⟨0, [], []⟩

def question (mark : Token) (c : OperandChain) : OperandChain :=
  { c with first := { c.first with maybes := mark.start :: c.first.maybes } }

end OperandChain

namespace OperandSuffix

def none : OperandSuffix := ⟨0, [], []⟩

def afterAmpersand (c : OperandChain) : OperandSuffix :=
  ⟨0, c.first :: c.others, c.groups⟩

def afterBar (ampersand : Option Token) (c : OperandChain) : OperandSuffix :=
  ⟨0, [], ⟨ampersand.map (·.start), c.first, c.others⟩ :: c.groups⟩

end OperandSuffix

namespace OperandGroup

def position (g : OperandGroup) : Position :=
  g.lead.getD g.first.position

def tree (g : OperandGroup) : TypeTree :=
  if g.others.isEmpty then ⟨g.first.position, g.first.build⟩
  else ⟨g.position, return .intersection g.position (← (g.first :: g.others).mapM Operand.build)⟩

end OperandGroup

namespace TypeTree

def ofChain (bar ampersand : Option Token) (c : OperandChain) : TypeTree :=
  let first : OperandGroup := ⟨ampersand.map (·.start), c.first, c.others⟩
  if c.groups.isEmpty then first.tree
  else
    let start := (bar.map (·.start)).getD first.position
    ⟨start, return .union start (← (first :: c.groups).mapM (·.tree.build))⟩

def buildAnnotated (t : TypeTree) (lo : Position) : Build TypeExpr := do
  let built ← t.build
  return built.withLeading (← Build.commentsBetween lo t.start)

end TypeTree

structure FunctionParamTree where
  loc : Position
  name : Option Token
  type : TypeTree
  optional : Bool
  rest : Bool

namespace FunctionParamTree

def bare (t : TypeTree) : FunctionParamTree :=
  ⟨t.start, none, t, false, false⟩

def build (p : FunctionParamTree) : Build (FunctionParam TypeExpr) :=
  return ⟨p.loc, p.name.map (·.text), ← p.type.build, p.optional, p.rest⟩

end FunctionParamTree

namespace TypeTree

def buildSignature (loc : Position) (params : List FunctionParamTree) (result : TypeTree) :
    Build (CallSignature TypeExpr) :=
  return ⟨loc, ← params.mapM FunctionParamTree.build, ← result.build⟩

def buildFunction (loc : Position) (params : List FunctionParamTree) (result : TypeTree) :
    Build TypeExpr := do
  let s ← buildSignature loc params result
  return .function s.loc s.params s.result

def buildParenthesised (loc : Position) (params : List FunctionParamTree) : Build TypeExpr := do
  let built ← params.mapM FunctionParamTree.build
  match built with
  | [⟨_, none, type, _, false⟩] => return type
  | _ => Build.structureFault .functionWithoutResult loc

def buildReference (name : Token) (path : List Token) (args : Option (List TypeTree)) :
    Build TypeExpr := do
  let names := (name :: path).map (·.text)
  let loc := name.start
  let args ← (args.getD []).mapM (·.build)
  if path.isEmpty ∧ args.isEmpty then
    return (TypeExpr.builtin? loc name.text).getD (.reference loc [] name.text [])
  return .reference loc names.dropLast (names.getLast?.getD name.text) args

end TypeTree

inductive MemberTree where
  | property (key : Token) (optional : Bool) (value : TypeTree)
  | method (key : Token) (params : List FunctionParamTree) (result : TypeTree)
  | spread (argument : TypeTree)
  | indexer (name : Option Token) (key value : TypeTree)
  | call (params : List FunctionParamTree) (result : TypeTree)

structure ObjectTree where
  extent : Extent
  exact : Bool
  members : List (Extent × MemberTree)

namespace ObjectTree

inductive Part where
  | member (m : Member TypeExpr)
  | indexer (i : Indexer TypeExpr)
  | call (c : CallSignature TypeExpr)

namespace Part

def member? : Part → Option (Member TypeExpr)
  | member m => some m
  | _ => none

def indexer? : Part → Option (Indexer TypeExpr)
  | indexer i => some i
  | _ => none

def call? : Part → Option (CallSignature TypeExpr)
  | call c => some c
  | _ => none

end Part

def buildPart (loc : Position) (notes : Notes) : MemberTree → Build Part
  | .property key optional value => do
    let text ← Build.keyText key
    let type ← value.buildAnnotated loc
    return .member (.property
      ⟨loc, text, key.text, type, optional, key.terminal = .string, notes⟩)
  | .method key params result => do
    let text ← Build.keyText key
    let type ← TypeTree.buildFunction loc params result
    return .member (.property ⟨loc, text, key.text, type, false, key.terminal = .string, notes⟩)
  | .spread argument => do
    return .member (.spread ⟨loc, ← argument.build, notes⟩)
  | .indexer name key value => do
    return .indexer ⟨loc, name.map (·.text), ← key.build, ← value.build⟩
  | .call params result => do
    return .call (← TypeTree.buildSignature loc params result)

def build (o : ObjectTree) : Build (ObjectType TypeExpr) := do
  let notes := Notes.ofObject (← read).comments o.extent (o.members.map (·.1))
  let parts ← (o.members.zip notes).mapM fun m => buildPart m.1.1.start m.2 m.1.2
  return ⟨o.extent.start, parts.filterMap Part.member?, parts.filterMap Part.indexer?,
    parts.filterMap Part.call?, o.exact, []⟩

def tree (o : ObjectTree) : TypeTree :=
  ⟨o.extent.start, return .object (← o.build)⟩

end ObjectTree

end PropTables
