import PropTables.Grammar.Nonterminal
import PropTables.Grammar.Phrase

/-!
The rules of the language. Every choice is settled by the next token, and every repetition goes on
while it can; so the result of a function type takes up all the marks that follow it.
-/

namespace PropTables.Language

abbrev Rule (α : Type) := Phrase Nonterminal α

open Phrase (mark keyword maybe many call listOrNone present spanned token)

def name : Rule Token := token [.name]
def string : Rule Token := token [.string]
def comma : Rule Token := mark .comma
def colon : Rule Token := mark .colon
def fromWord : Rule Token := keyword .fromWord

def skip (a : Rule α) : Rule Unit :=
  (fun _ => ()) <$> a

def choice (a : Rule α) (b : Rule β) : Rule (α ⊕ β) :=
  Sum.inl <$> a <|> Sum.inr <$> b

def semicolon : Rule Unit := skip (maybe (mark .semicolon))

def words : List Terminal :=
  .name :: Keyword.all.map .keyword

/-- The key of a class member. The word `static` is read before it. -/
def memberKeys : List Terminal :=
  .string :: words.erase (.keyword .staticWord)

def blockTokens : List Terminal :=
  [.name, .string, .number, .template, .operator] ++ Keyword.all.map .keyword ++
    ([.question, .openParen, .closeParen, .openBracket, .closeBracket, .semicolon, .comma, .colon,
      .dot, .equals, .bar, .ampersand, .less, .greater, .star, .arrow,
      .ellipsis] : List Mark).map .mark

def dotted (after : List Terminal) : Rule Token :=
  mark .dot *> token after

def typed : Rule TypeTree :=
  colon *> call .type

def inBraces (a : Rule α) : Rule α :=
  mark .openBrace *> a <* mark .closeBrace

def inParens (a : Rule α) : Rule α :=
  mark .openParen *> a <* mark .closeParen

section Types

def literal (terminal : Terminal) (build : Token → Build TypeExpr) : Rule OperandChain :=
  (fun t s => .ofBase t.start (build t) s) <$> token [terminal] <*> call .suffix

def objectOperand (object : Nonterminal ObjectTree) : Rule OperandChain :=
  (fun o s => .ofBase o.tree.start o.tree.build s) <$> call object <*> call .suffix

def tuple : Rule OperandChain :=
  (fun t elements s =>
      .ofBase t.start (return .tuple t.start (← elements.mapM TypeTree.build)) s)
    <$> mark .openBracket <*> listOrNone (call .type) comma <* mark .closeBracket <*> call .suffix

def parenthesised : Rule OperandChain :=
  (fun t params rest =>
      match rest with
      | .inl result => .single t.start (TypeTree.buildFunction t.start params result)
      | .inr s => .ofBase t.start (TypeTree.buildParenthesised t.start params) s)
    <$> mark .openParen <*> call .functionParams <* mark .closeParen
    <*> choice (mark .arrow *> call .type) (call .suffix)

def stringType (t : Token) : Build TypeExpr :=
  return .string t.start (← Build.stringValue t) t.text

def numberType (t : Token) : Build TypeExpr :=
  return .number t.start (← Build.numberValue t) t.text

def restParam : Rule (Option Token × TypeTree) :=
  ((fun n (rest : TypeTree ⊕ NameSuffix) =>
      match rest with
      | .inl t => (some n, t)
      | .inr s => (none, s.tree n))
    <$> name <*> choice typed (call .nameSuffix))
  <|> (none, ·) <$> call .typeWithoutName

def paramBody : Rule (Position → FunctionParamTree) :=
  ((fun p loc => ⟨loc, p.1, p.2, false, true⟩) <$> (mark .ellipsis *> restParam))
  <|> ((fun n (rest : (Bool × TypeTree) ⊕ NameSuffix) =>
        match rest with
        | .inl (optional, t) => fun loc => ⟨loc, some n, t, optional, false⟩
        | .inr s => fun _ => .bare (s.tree n))
      <$> name
      <*> choice (Prod.mk true <$> (mark .question *> typed) <|> Prod.mk false <$> typed)
        (call .nameSuffix))
  <|> (fun t _ => .bare t) <$> call .typeWithoutName

def keyedMember : Rule MemberTree :=
  (fun key (rest : (List FunctionParamTree × TypeTree) ⊕ (Bool × TypeTree)) =>
      match rest with
      | .inl signature => .method key signature.1 signature.2
      | .inr value => .property key value.1 value.2)
    <$> token (.string :: words)
    <*> choice (Prod.mk <$> inParens (call .functionParams) <*> typed)
      (Prod.mk <$> present (mark .question) <*> typed)

def indexer : Rule MemberTree :=
  (fun key value => .indexer key.1 key.2 value)
    <$> (mark .openBracket *> restParam <* mark .closeBracket) <*> typed

end Types

section Expressions

def keyedEntry (key : Token) (value : Option ExprTree) : Build (ObjectEntry Expr) :=
  match value with
  | some v => ExprTree.entry key v
  | none => ExprTree.shorthand key

def arrowTail : Rule Unit :=
  mark .arrow *> call .arrowBody

def restOrPattern : Rule (Position → ParamTree) :=
  ((fun n a loc => ⟨loc, some n, a.map AscriptionTree.type, false, true⟩)
    <$> (mark .ellipsis *> name) <*> maybe (call .ascription))
  <|> ((fun n optional a _ loc => ⟨loc, n, a.map AscriptionTree.type, optional, false⟩)
    <$> (some <$> name <|> (fun _ => none) <$> call .block) <*> present (mark .question)
    <*> maybe (call .ascription) <*> maybe (call .initial))

end Expressions

section Declarations

def optionalTypeParams : Rule (List TypeParameter) :=
  (Option.getD · []) <$> maybe (call .typeParams)

def heritage : Rule (Expr × Option (List TypeTree)) :=
  (fun head attrs args => (PathTree.dotted head attrs, args))
    <$> (keyword .extendsWord *> name) <*> many (dotted words) <*> maybe (call .typeArgs)

def memberRest : Rule (Position → Bool → Token → Build ClassMember) :=
  ((fun _ params result _ loc isStatic key => ClassTree.method loc isStatic key params result)
    <$> call .typeParams <*> call .params <*> maybe (call .ascription) <*> call .block)
  <|> ((fun params result _ loc isStatic key => ClassTree.method loc isStatic key params result)
    <$> call .params <*> maybe (call .ascription) <*> call .block)
  <|> ((fun optional ascription init loc isStatic key =>
        ClassTree.property loc isStatic key optional ascription init)
    <$> present (mark .question) <*> maybe (call .ascription) <*> maybe (call .initial)
    <* semicolon)

def interfaceDeclaration : Rule (Build Declaration) :=
  (fun word n params body => return .interface (← buildInterface word.start n params body))
    <$> keyword .interfaceWord <*> name <*> optionalTypeParams <*> call .objectType

def declarator : Rule (Build VariableDeclarator) :=
  buildDeclarator <$> name <*> maybe (call .ascription) <*> maybe (call .initial)

def variableDeclaration : Rule (Build Declaration) :=
  (fun word first others => return .binding (← buildVariables word (first :: others)))
    <$> token [.keyword .constWord, .keyword .letWord, .keyword .varWord]
    <*> declarator <*> many (comma *> declarator) <* semicolon

end Declarations

section Items

def importKind : Rule Token :=
  token [.keyword .typeWord, .keyword .typeofWord]

def newName : Rule (Option Token) :=
  maybe (keyword .asWord *> name)

def namespaceImport : Rule (List ImportTree) :=
  (fun n => [.namespace_ n]) <$> (mark .star *> keyword .asWord *> name)

def importSpecifier : Rule ImportTree :=
  (fun p => .named p.1.start p.2.1 p.2.2.1 p.2.2.2)
    <$> spanned ((fun k i r => (k, i, r)) <$> maybe importKind
      <*> token [.name, .keyword .defaultWord] <*> newName)

def exportSpecifier : Rule ExportSpecifier :=
  (fun inner exported => ExportClauseTree.specifier inner.start inner exported)
    <$> token words <*> maybe (keyword .asWord *> token words)

def defaultExport : Rule (Position → Build Item) :=
  (fun d loc => ItemTree.exportedDefault loc d)
    <$> ((fun c => return .class_ (← ClassTree.build c)) <$> call .classDeclaration
      <|> (fun f => return .function (← f)) <$> call .functionDeclaration
      <|> (fun e => return .expression (← e)) <$> call .expr)
    <* semicolon

def statement : Rule (Build Item) :=
  (fun head attrs (rest : ExprTree ⊕ List (Position × List ExprTree)) =>
      match rest with
      | .inl value => ItemTree.assignment head attrs value
      | .inr calls => ItemTree.call head ⟨attrs, calls⟩)
    <$> name <*> many (dotted words)
    <*> choice (call .initial) (List.cons <$> call .callArgs <*> many (call .callArgs))
    <* semicolon

end Items

def rule : Nonterminal α → Rule α
  | .type => (fun n s => s.tree n) <$> name <*> call .nameSuffix <|> call .typeWithoutName
  | .typeWithoutName =>
    (fun bar ampersand c => .ofChain (some bar) ampersand c)
      <$> mark .bar <*> maybe (mark .ampersand) <*> call .chain
    <|> (fun ampersand c => .ofChain none (some ampersand) c)
      <$> mark .ampersand <*> call .chain
    <|> (fun q c => .ofChain none none (c.question q)) <$> mark .question <*> call .chain
    <|> .ofChain none none <$> call .chainWithoutName
  | .nameSuffix =>
    NameSuffix.mk <$> many (dotted [.name]) <*> maybe (call .typeArgs) <*> call .suffix
  | .chain =>
    (fun q c => c.question q) <$> mark .question <*> call .chain
    <|> (fun n s => s.chain n) <$> name <*> call .nameSuffix
    <|> call .chainWithoutName
  | .chainWithoutName =>
    literal .string stringType <|> literal .number numberType
    <|> objectOperand .objectType <|> objectOperand .exactObjectType <|> tuple <|> parenthesised
  | .suffix =>
    (fun arrays (more : OperandSuffix) => ⟨arrays.length, more.others, more.groups⟩)
      <$> many (mark .openBracket *> mark .closeBracket)
      <*> (OperandSuffix.afterAmpersand <$> (mark .ampersand *> call .chain)
        <|> OperandSuffix.afterBar <$> (mark .bar *> maybe (mark .ampersand)) <*> call .chain
        <|> pure OperandSuffix.none)
  | .typeArgs => mark .less *> .list (call .type) comma <* mark .greater
  | .functionParams => listOrNone (call .functionParam) comma
  | .functionParam => (fun p => p.2 p.1.start) <$> spanned paramBody
  | .objectType =>
    (fun p => ⟨p.1, false, p.2⟩) <$> spanned (inBraces (call .objectMembers))
  | .exactObjectType =>
    (fun p => ⟨p.1, true, p.2⟩)
      <$> spanned (mark .openExact *> call .objectMembers <* mark .closeExact)
  | .objectMembers =>
    listOrNone (spanned (call .objectMember)) (token [.mark .comma, .mark .semicolon])
  | .objectMember =>
    keyedMember
    <|> .spread <$> (mark .ellipsis *> call .type)
    <|> indexer
    <|> .call <$> inParens (call .functionParams) <*> typed
  | .expr =>
    ExprTree.string <$> string
    <|> ExprTree.number <$> token [.number]
    <|> ExprTree.template <$> token [.template]
    <|> (fun n (rest : Unit ⊕ PathTree) =>
          match rest with
          | .inl _ => ExprTree.arrowOfName n
          | .inr p => p.build n)
        <$> name <*> choice arrowTail (call .path)
    <|> (fun t entries => ExprTree.object t.start entries)
        <$> mark .openBrace <*> listOrNone (call .objectEntry) comma <* mark .closeBrace
    <|> (fun t items => ExprTree.array t.start items)
        <$> mark .openBracket <*> listOrNone (call .expr) comma <* mark .closeBracket
    <|> (fun p => ExprTree.arrow p.1.start p.2) <$> spanned (call .params) <* arrowTail
  | .path => PathTree.mk <$> many (dotted words) <*> many (call .callArgs)
  | .callArgs =>
    (fun t args => (t.start, args))
      <$> mark .openParen <*> listOrNone (call .expr) comma <* mark .closeParen
  | .objectEntry =>
    keyedEntry <$> name <*> maybe (colon *> call .expr)
    <|> ExprTree.entry <$> token (.string :: words.erase .name) <*> (colon *> call .expr)
    <|> ExprTree.spread <$> mark .ellipsis <*> call .expr
  | .arrowBody =>
    call .block
    <|> (fun _ _ => ()) <$> name <*> call .path
    <|> skip (token [.string, .number])
  | .block => (fun _ => ()) <$> inBraces (many (call .blockItem))
  | .blockItem => call .block <|> skip (token blockTokens)
  | .params => inParens (listOrNone (call .param) comma)
  | .param => (fun p => p.2 p.1.start) <$> spanned restOrPattern
  | .ascription => (fun t type => ⟨t.start, type⟩) <$> colon <*> call .type
  | .initial => mark .equals *> call .expr
  | .typeParams =>
    mark .less *> .list (TypeParameter.ofToken <$> name) comma <* mark .greater
  | .classDeclaration =>
    (fun word n params superclass body => ⟨word.start, n, params, superclass, body⟩)
      <$> keyword .classWord <*> maybe name <*> optionalTypeParams <*> maybe heritage
      <*> inBraces (many (call .classMember))
  | .classMember =>
    (fun p => p.2.2.2 p.1.start p.2.1 p.2.2.1)
      <$> spanned ((fun s key rest => (s, key, rest))
        <$> present (keyword .staticWord) <*> token memberKeys <*> memberRest)
  | .functionDeclaration =>
    (fun word n _ params result _ => buildFunction word.start n params result)
      <$> keyword .functionWord <*> name <*> optionalTypeParams <*> call .params
      <*> maybe (call .ascription) <*> call .block
  | .aliasRest =>
    AliasTree.mk <$> name <*> optionalTypeParams <*> (mark .equals *> call .type) <* semicolon
  | .declaration =>
    interfaceDeclaration
    <|> (fun c => return .class_ (← ClassTree.buildNamed c)) <$> call .classDeclaration
    <|> (fun f => return .function (← f)) <$> call .functionDeclaration
    <|> variableDeclaration
  | .importRest =>
    (fun source loc => ImportTree.buildAll loc none [] source) <$> string <* semicolon
    <|> (fun kind specifiers source loc => ImportTree.buildAll loc kind specifiers source)
      <$> maybe importKind <*> call .importClause <*> (fromWord *> string) <* semicolon
  | .importClause =>
    (fun n more => .default_ n :: more.getD [])
      <$> name <*> maybe (comma *> (call .importNames <|> namespaceImport))
    <|> call .importNames
    <|> namespaceImport
  | .importNames => inBraces (listOrNone importSpecifier comma)
  | .exportRest =>
    keyword .defaultWord *> defaultExport
    <|> (fun source loc => ItemTree.exportedAll loc source)
      <$> (mark .star *> fromWord *> string) <* semicolon
    <|> (fun word (rest : AliasTree ⊕ ExportClauseTree) loc =>
          match rest with
          | .inl a => ItemTree.exported loc (return .typeAlias (← a.build word.start))
          | .inr c => c.build loc .type)
      <$> keyword .typeWord <*> choice (call .aliasRest) (call .exportClause)
    <|> (fun c loc => c.build loc .value) <$> call .exportClause
    <|> (fun d loc => ItemTree.exported loc d) <$> call .declaration
  | .exportClause =>
    ExportClauseTree.mk <$> inBraces (listOrNone exportSpecifier comma)
      <*> maybe (fromWord *> string) <* semicolon
  | .item =>
    (fun word rest => rest word.start) <$> keyword .importWord <*> call .importRest
    <|> (fun word rest => rest word.start) <$> keyword .exportWord <*> call .exportRest
    <|> (fun word a => ItemTree.declaration (return .typeAlias (← a.build word.start)))
      <$> keyword .typeWord <*> call .aliasRest
    <|> ItemTree.declaration <$> call .declaration
    <|> statement
  | .items => many (call .item)

end PropTables.Language
