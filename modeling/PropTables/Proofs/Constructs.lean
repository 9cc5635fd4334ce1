import PropTables.Grammar.Rules
import PropTables.Proofs.Derivations

/-! The grammar of the language in its plain form: one construct for each kind of phrase, choices that
more than the next token settles, and left recursion. It is ambiguous: a function type may end before
`[]`, `&` or `|`, and then the whole function type is the operand. -/

namespace PropTables

inductive Construct : Type → Type where
  | start : Construct (List (Build Item))
  | item : Construct (Build Item)
  | importDecl : Construct (Build Item)
  | importKind : Construct Token
  | importClause : Construct (List ImportTree)
  | importDefault : Construct ImportTree
  | namedImports : Construct (List ImportTree)
  | importSpec : Construct ImportTree
  | importName : Construct Token
  | namespaceImport : Construct (List ImportTree)
  | exportDecl : Construct (Build Item)
  | defaultValue : Construct (Build DefaultExport)
  | exportClause : Construct (List ExportSpecifier)
  | exportSpec : Construct ExportSpecifier
  | declaration : Construct (Build Declaration)
  | typeAlias : Construct (Build TypeAlias)
  | interfaceDecl : Construct (Build InterfaceDeclaration)
  | classDecl : Construct ClassTree
  | heritage : Construct (Expr × Option (List TypeTree))
  | functionDecl : Construct (Build FunctionDeclaration)
  | variableDecl : Construct (Build VariableDeclaration)
  | declarator : Construct (Build VariableDeclarator)
  | typeParams : Construct (List TypeParameter)
  | typeParam : Construct TypeParameter
  | ascription : Construct AscriptionTree
  | initializer : Construct ExprTree
  | classBody : Construct (List (Build ClassMember))
  | classMember : Construct (Build ClassMember)
  | classProperty : Construct (Build ClassMember)
  | classMethod : Construct (Build ClassMember)
  | params : Construct (List ParamTree)
  | anyParam : Construct ParamTree
  | param : Construct ParamTree
  | restParam : Construct ParamTree
  | paramTarget : Construct (Option Token)
  | assignment : Construct (Build Item)
  | callStatement : Construct (Build Item)
  | expr : Construct ExprTree
  | memberExpr : Construct (Token × List Token)
  | callExpr : Construct (Token × PathTree)
  | callArgs : Construct (Position × List ExprTree)
  | args : Construct (List ExprTree)
  | objectExpr : Construct ExprTree
  | objectEntry : Construct (Build (ObjectEntry Expr))
  | keyedEntry : Construct (Build (ObjectEntry Expr))
  | shorthand : Construct (Build (ObjectEntry Expr))
  | spreadEntry : Construct (Build (ObjectEntry Expr))
  | arrayExpr : Construct ExprTree
  | arrowExpr : Construct ExprTree
  | arrowParams : Construct (List ParamTree)
  | arrowBody : Construct Unit
  | type : Construct TypeTree
  | union : Construct TypeTree
  | intersection : Construct TypeTree
  | nullable : Construct TypeTree
  | array : Construct TypeTree
  | primary : Construct TypeTree
  | genericType : Construct TypeTree
  | typeArgs : Construct (List TypeTree)
  | tupleType : Construct TypeTree
  | parenType : Construct TypeTree
  /-- The type behind the arrow of a function type. -/
  | arrowResult : Construct TypeTree
  | functionParams : Construct (List FunctionParamTree)
  | functionParam : Construct FunctionParamTree
  | namedFunctionParam : Construct FunctionParamTree
  | restFunctionParam : Construct FunctionParamTree
  | objectType : Construct ObjectTree
  | exactObjectType : Construct ObjectTree
  | objectMembers : Construct (List (Extent × MemberTree))
  | memberSeparator : Construct Token
  | objectMember : Construct MemberTree
  | objectProperty : Construct MemberTree
  | methodProperty : Construct MemberTree
  | spreadProperty : Construct MemberTree
  | objectIndexer : Construct MemberTree
  | callProperty : Construct MemberTree
  | objectKey : Construct Token
  | name : Construct Token
  | memberName : Construct Token
  | block : Construct Unit
  | blockItem : Construct Unit

namespace TypeTree

def joined (build : Position → List TypeExpr → TypeExpr) (start : Position) :
    List TypeTree → TypeTree
  | [t] => t
  | ts => ⟨start, return build start (← ts.mapM TypeTree.build)⟩

def nullable (start : Position) (t : TypeTree) : TypeTree :=
  ⟨start, return .nullable start (← t.build)⟩

def array (t : TypeTree) : TypeTree :=
  ⟨t.start, return .array t.start (← t.build)⟩

def parenthesised (start : Position) (params : List FunctionParamTree) (result : Option TypeTree) :
    TypeTree :=
  ⟨start, match result with
    | some r => buildFunction start params r
    | none => buildParenthesised start params⟩

end TypeTree

namespace Construct

open Phrase (mark keyword maybe many call listOrNone present spanned token list)

abbrev Clause (α : Type) := Phrase Construct α

@[simp] def located (a : Clause (Position → α)) : Clause α :=
  (fun p => p.2 p.1.start) <$> spanned a

@[simp] def identifier : Clause Token := token [.name]
@[simp] def string : Clause Token := token [.string]
@[simp] def comma : Clause Token := mark .comma
@[simp] def colon : Clause Token := mark .colon
@[simp] def semicolon : Clause (Option Token) := maybe (mark .semicolon)

@[simp] def orNone (a : Clause (List α)) : Clause (List α) :=
  (Option.getD · []) <$> maybe a

@[simp] def typed : Clause TypeTree :=
  colon *> call .type

@[simp] def inParens (a : Clause α) : Clause α :=
  mark .openParen *> a <* mark .closeParen

@[simp] def parameters : Clause (List ParamTree) :=
  inParens (orNone (call .params))

@[simp] def functionParameters : Clause (List FunctionParamTree) :=
  inParens (orNone (call .functionParams))

@[simp] def label : Clause (Option Token) :=
  maybe (identifier <* colon)

@[simp] def rule : ⦃α : Type⦄ → Construct α → Clause α
  | _, start => many (call item)
  | _, item =>
    call importDecl <|> call exportDecl <|> ItemTree.declaration <$> call declaration
    <|> call assignment <|> call callStatement
  | _, importDecl =>
    (fun word kind specifiers source => ImportTree.buildAll word.start kind specifiers source)
      <$> keyword .importWord <*> maybe (call importKind) <*> call importClause
      <*> (keyword .fromWord *> string) <* semicolon
    <|> (fun word source => ImportTree.buildAll word.start none [] source)
      <$> keyword .importWord <*> string <* semicolon
  | _, importKind => token [.keyword .typeWord, .keyword .typeofWord]
  | _, importClause =>
    (fun d more => d :: more.getD [])
      <$> call importDefault
      <*> maybe (comma *> (call namedImports <|> call namespaceImport))
    <|> call namedImports
    <|> call namespaceImport
  | _, importDefault => .default_ <$> identifier
  | _, namedImports =>
    mark .openBrace *> listOrNone (call importSpec) comma <* mark .closeBrace
  | _, importSpec =>
    (fun p => .named p.1.start p.2.1 p.2.2.1 p.2.2.2)
      <$> spanned ((fun kind imported renamed => (kind, imported, renamed))
        <$> maybe (call importKind) <*> call importName
        <*> maybe (keyword .asWord *> identifier))
  | _, importName => token [.name, .keyword .defaultWord]
  | _, namespaceImport =>
    (fun n => [.namespace_ n]) <$> (mark .star *> keyword .asWord *> identifier)
  | _, exportDecl =>
    (fun word value => ItemTree.exportedDefault word.start value)
      <$> keyword .exportWord <*> (keyword .defaultWord *> call defaultValue) <* semicolon
    <|> (fun word source => ItemTree.exportedAll word.start source)
      <$> keyword .exportWord <*> (mark .star *> keyword .fromWord *> string) <* semicolon
    <|> (fun word d => ItemTree.exported word.start d)
      <$> keyword .exportWord <*> call declaration
    <|> (fun word types specifiers source =>
        ExportClauseTree.build word.start (if types then .type else .value) ⟨specifiers, source⟩)
      <$> keyword .exportWord <*> present (keyword .typeWord) <*> call exportClause
      <*> maybe (keyword .fromWord *> string) <* semicolon
  | _, defaultValue =>
    (fun c => return .class_ (← ClassTree.build c)) <$> call classDecl
    <|> (fun f => return .function (← f)) <$> call functionDecl
    <|> (fun e => return .expression (← e)) <$> call expr
  | _, exportClause =>
    mark .openBrace *> listOrNone (call exportSpec) comma <* mark .closeBrace
  | _, exportSpec =>
    (fun inner exported => ExportClauseTree.specifier inner.start inner exported)
      <$> call name <*> maybe (keyword .asWord *> call name)
  | _, declaration =>
    (fun a => return .typeAlias (← a)) <$> call typeAlias
    <|> (fun i => return .interface (← i)) <$> call interfaceDecl
    <|> (fun c => return .class_ (← ClassTree.buildNamed c)) <$> call classDecl
    <|> (fun f => return .function (← f)) <$> call functionDecl
    <|> (fun v => return .binding (← v)) <$> call variableDecl
  | _, typeAlias =>
    (fun word n params right => AliasTree.build word.start ⟨n, params, right⟩)
      <$> keyword .typeWord <*> identifier <*> orNone (call typeParams)
      <*> (mark .equals *> call type) <* semicolon
  | _, interfaceDecl =>
    (fun word n params body => buildInterface word.start n params body)
      <$> keyword .interfaceWord <*> identifier <*> orNone (call typeParams) <*> call objectType
  | _, classDecl =>
    (fun word n params superclass body => ⟨word.start, n, params, superclass, body⟩)
      <$> keyword .classWord <*> maybe identifier <*> orNone (call typeParams)
      <*> maybe (keyword .extendsWord *> call heritage) <*> call classBody
  | _, heritage =>
    (fun path args => (PathTree.dotted path.1 path.2, args))
      <$> call memberExpr <*> maybe (call typeArgs)
  | _, functionDecl =>
    (fun word n _ params result _ => buildFunction word.start n params result)
      <$> keyword .functionWord <*> identifier <*> orNone (call typeParams) <*> parameters
      <*> maybe (call ascription) <*> call block
  | _, variableDecl =>
    (fun word first others => buildVariables word (first :: others))
      <$> token [.keyword .constWord, .keyword .letWord, .keyword .varWord]
      <*> call declarator <*> many (comma *> call declarator) <* semicolon
  | _, declarator =>
    buildDeclarator <$> identifier <*> maybe (call ascription) <*> maybe (call initializer)
  | _, typeParams => mark .less *> list (call typeParam) comma <* mark .greater
  | _, typeParam => TypeParameter.ofToken <$> identifier
  | _, ascription => (fun t type => ⟨t.start, type⟩) <$> colon <*> call type
  | _, initializer => mark .equals *> call expr
  | _, classBody => mark .openBrace *> many (call classMember) <* mark .closeBrace
  | _, classMember => call classProperty <|> call classMethod
  | _, classProperty =>
    located ((fun isStatic key optional ascription init loc =>
        ClassTree.property loc isStatic key optional ascription init)
      <$> present (keyword .staticWord) <*> call memberName <*> present (mark .question)
      <*> maybe (call ascription) <*> maybe (call initializer) <* semicolon)
  | _, classMethod =>
    located ((fun isStatic key _ params result _ loc =>
        ClassTree.method loc isStatic key params result)
      <$> present (keyword .staticWord) <*> call memberName <*> maybe (call typeParams)
      <*> parameters <*> maybe (call ascription) <*> call block)
  | _, params => list (call anyParam) comma
  | _, anyParam => call param <|> call restParam
  | _, param =>
    located ((fun n optional ascription _ loc =>
        ⟨loc, n, ascription.map AscriptionTree.type, optional, false⟩)
      <$> call paramTarget <*> present (mark .question) <*> maybe (call ascription)
      <*> maybe (call initializer))
  | _, restParam =>
    located ((fun n ascription loc =>
        ⟨loc, some n, ascription.map AscriptionTree.type, false, true⟩)
      <$> (mark .ellipsis *> identifier) <*> maybe (call ascription))
  | _, paramTarget => some <$> identifier <|> (fun _ => none) <$> call block
  | _, assignment =>
    (fun path value => ItemTree.assignment path.1 path.2 value)
      <$> call memberExpr <*> (mark .equals *> call expr) <* semicolon
  | _, callStatement => (fun c => ItemTree.call c.1 c.2) <$> call callExpr <* semicolon
  | _, expr =>
    ExprTree.string <$> string
    <|> ExprTree.number <$> token [.number]
    <|> ExprTree.template <$> token [.template]
    <|> (fun path => return PathTree.dotted path.1 path.2) <$> call memberExpr
    <|> (fun c => PathTree.build c.1 c.2) <$> call callExpr
    <|> call objectExpr <|> call arrayExpr <|> call arrowExpr
  | _, memberExpr => Prod.mk <$> identifier <*> many (mark .dot *> call name)
  | _, callExpr =>
    (fun path first others => (path.1, ⟨path.2, first :: others⟩))
      <$> call memberExpr <*> call callArgs <*> many (call callArgs)
  | _, callArgs =>
    (fun t args => (t.start, args)) <$> mark .openParen <*> orNone (call args)
      <* mark .closeParen
  | _, args => list (call expr) comma
  | _, objectExpr =>
    (fun t entries => ExprTree.object t.start entries)
      <$> mark .openBrace <*> listOrNone (call objectEntry) comma <* mark .closeBrace
  | _, objectEntry => call keyedEntry <|> call shorthand <|> call spreadEntry
  | _, keyedEntry => ExprTree.entry <$> call objectKey <*> (colon *> call expr)
  | _, shorthand => ExprTree.shorthand <$> identifier
  | _, spreadEntry => ExprTree.spread <$> mark .ellipsis <*> call expr
  | _, arrayExpr =>
    (fun t items => ExprTree.array t.start items)
      <$> mark .openBracket <*> orNone (call args) <* mark .closeBracket
  | _, arrowExpr =>
    located ((fun params _ loc => ExprTree.arrow loc params)
      <$> call arrowParams <*> (mark .arrow *> call arrowBody))
  | _, arrowParams =>
    (fun n => [⟨n.start, some n, none, false, false⟩]) <$> identifier <|> parameters
  | _, arrowBody =>
    call block <|> (fun _ => ()) <$> call memberExpr <|> (fun _ => ()) <$> call callExpr
    <|> (fun _ => ()) <$> token [.string, .number]
  | _, type => call union
  | _, union =>
    (fun p => TypeTree.joined .union p.1.start p.2)
      <$> spanned (List.cons <$> (maybe (mark .bar) *> call intersection)
        <*> many (mark .bar *> call intersection))
  | _, intersection =>
    (fun p => TypeTree.joined .intersection p.1.start p.2)
      <$> spanned (List.cons <$> (maybe (mark .ampersand) *> call nullable)
        <*> many (mark .ampersand *> call nullable))
  | _, nullable =>
    (fun q t => TypeTree.nullable q.start t) <$> mark .question <*> call nullable <|> call array
  | _, array =>
    call primary
    <|> TypeTree.array <$> call array <* mark .openBracket <* mark .closeBracket
  | _, primary =>
    call genericType <|> ObjectTree.tree <$> call objectType
    <|> ObjectTree.tree <$> call exactObjectType <|> call tupleType <|> call parenType
    <|> (fun t => ⟨t.start, Language.stringType t⟩) <$> string
    <|> (fun t => ⟨t.start, Language.numberType t⟩) <$> token [.number]
  | _, genericType =>
    (fun n path args => ⟨n.start, TypeTree.buildReference n path args⟩)
      <$> identifier <*> many (mark .dot *> identifier) <*> maybe (call typeArgs)
  | _, typeArgs => mark .less *> list (call type) comma <* mark .greater
  | _, tupleType =>
    (fun t elements => ⟨t.start, return .tuple t.start (← elements.mapM TypeTree.build)⟩)
      <$> mark .openBracket <*> listOrNone (call type) comma <* mark .closeBracket
  | _, parenType =>
    (fun t params result => TypeTree.parenthesised t.start params result)
      <$> mark .openParen <*> orNone (call functionParams) <* mark .closeParen
      <*> maybe (mark .arrow *> call arrowResult)
  | _, arrowResult => call type
  | _, functionParams => list (call functionParam) comma
  | _, functionParam =>
    call namedFunctionParam <|> call restFunctionParam <|> FunctionParamTree.bare <$> call type
  | _, namedFunctionParam =>
    located ((fun n optional type loc => ⟨loc, some n, type, optional, false⟩)
      <$> identifier <*> present (mark .question) <*> typed)
  | _, restFunctionParam =>
    located ((fun n type loc => ⟨loc, n, type, false, true⟩)
      <$> (mark .ellipsis *> label) <*> call type)
  | _, objectType =>
    (fun p => ⟨p.1, false, p.2⟩)
      <$> spanned (mark .openBrace *> orNone (call objectMembers) <* mark .closeBrace)
  | _, exactObjectType =>
    (fun p => ⟨p.1, true, p.2⟩)
      <$> spanned (mark .openExact *> orNone (call objectMembers) <* mark .closeExact)
  | _, objectMembers => list (spanned (call objectMember)) (call memberSeparator)
  | _, memberSeparator => token [.mark .comma, .mark .semicolon]
  | _, objectMember =>
    call objectProperty <|> call methodProperty <|> call spreadProperty <|> call objectIndexer
    <|> call callProperty
  | _, objectProperty => .property <$> call objectKey <*> present (mark .question) <*> typed
  | _, methodProperty => .method <$> call objectKey <*> functionParameters <*> typed
  | _, spreadProperty => .spread <$> (mark .ellipsis *> call type)
  | _, objectIndexer =>
    .indexer <$> (mark .openBracket *> label) <*> (call type <* mark .closeBracket) <*> typed
  | _, callProperty => .call <$> functionParameters <*> typed
  | _, objectKey => call name <|> string
  | _, name => token Language.words
  | _, memberName => token Language.memberKeys
  | _, block => (fun _ => ()) <$> (mark .openBrace *> many (call blockItem) <* mark .closeBrace)
  | _, blockItem => call block <|> (fun _ => ()) <$> token Language.blockTokens

/-- The result of a function type extends as far as possible: no mark that could go on with it is left. -/
def greedy : Endings Construct
  | _, arrowResult, ts =>
    ∀ t ∈ ts.head?, t.terminal ∉ [.mark .openBracket, .mark .ampersand, .mark .bar]
  | _, _, _ => True

end Construct

end PropTables
