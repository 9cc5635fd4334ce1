import PropTables.Grammar.ModuleTree

/-!
The nonterminals of the language, each with the type of its values. Where two phrases start with a
name, the name is read first and a nonterminal stands for what may follow it.
-/

namespace PropTables

structure NameSuffix where
  path : List Token
  args : Option (List TypeTree)
  suffix : OperandSuffix

namespace NameSuffix

def chain (name : Token) (s : NameSuffix) : OperandChain :=
  .ofBase name.start (TypeTree.buildReference name s.path s.args) s.suffix

def tree (name : Token) (s : NameSuffix) : TypeTree :=
  .ofChain none none (s.chain name)

end NameSuffix

inductive Nonterminal : Type → Type where
  | type : Nonterminal TypeTree
  | typeWithoutName : Nonterminal TypeTree
  | nameSuffix : Nonterminal NameSuffix
  | chain : Nonterminal OperandChain
  | chainWithoutName : Nonterminal OperandChain
  | suffix : Nonterminal OperandSuffix
  | typeArgs : Nonterminal (List TypeTree)
  | functionParams : Nonterminal (List FunctionParamTree)
  | functionParam : Nonterminal FunctionParamTree
  | objectType : Nonterminal ObjectTree
  | exactObjectType : Nonterminal ObjectTree
  | objectMembers : Nonterminal (List (Extent × MemberTree))
  | objectMember : Nonterminal MemberTree
  | expr : Nonterminal ExprTree
  | path : Nonterminal PathTree
  | callArgs : Nonterminal (Position × List ExprTree)
  | objectEntry : Nonterminal (Build (ObjectEntry Expr))
  | arrowBody : Nonterminal Unit
  | block : Nonterminal Unit
  | blockItem : Nonterminal Unit
  | params : Nonterminal (List ParamTree)
  | param : Nonterminal ParamTree
  | ascription : Nonterminal AscriptionTree
  | initial : Nonterminal ExprTree
  | typeParams : Nonterminal (List TypeParameter)
  | classDeclaration : Nonterminal ClassTree
  | classMember : Nonterminal (Build ClassMember)
  | functionDeclaration : Nonterminal (Build FunctionDeclaration)
  | aliasRest : Nonterminal AliasTree
  | declaration : Nonterminal (Build Declaration)
  | importRest : Nonterminal (Position → Build Item)
  | importClause : Nonterminal (List ImportTree)
  | importNames : Nonterminal (List ImportTree)
  | exportRest : Nonterminal (Position → Build Item)
  | exportClause : Nonterminal ExportClauseTree
  | item : Nonterminal (Build Item)
  | items : Nonterminal (List (Build Item))

end PropTables
