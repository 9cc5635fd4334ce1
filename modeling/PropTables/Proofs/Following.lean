import PropTables.Grammar.Table
import PropTables.Proofs.Predictive

/-! The grammar of the language is predictive: what may follow each of its nonterminals, and how many of
them open before the next token. -/

namespace PropTables.Language

def memberWords : List Terminal :=
  .keyword .staticWord :: memberKeys

def closers : List Terminal :=
  marks [.comma, .semicolon, .closeBrace, .closeParen] ++ firstOfItem ++ memberWords

def followOfType : List Terminal :=
  marks [.closeExact, .closeBracket, .greater, .equals, .openBrace] ++ closers

def follow : ⦃α : Type⦄ → Nonterminal α → List Terminal
  | _, .type | _, .typeWithoutName | _, .nameSuffix | _, .chain | _, .chainWithoutName
  | _, .suffix => followOfType
  | _, .typeArgs | _, .objectType | _, .exactObjectType =>
    marks [.openBracket, .ampersand, .bar] ++ followOfType
  | _, .functionParams => marks [.closeParen]
  | _, .functionParam | _, .param => marks [.comma, .closeParen]
  | _, .objectMembers => marks [.closeBrace, .closeExact]
  | _, .objectMember => marks [.comma, .semicolon, .closeBrace, .closeExact]
  | _, .expr | _, .path | _, .arrowBody => .mark .closeBracket :: closers
  | _, .callArgs => marks [.openParen, .closeBracket] ++ closers
  | _, .objectEntry => marks [.comma, .closeBrace]
  | _, .block =>
    marks [.openBrace, .closeBracket, .question, .colon, .equals] ++ closers ++ blockTokens
  | _, .blockItem => marks [.openBrace, .closeBrace] ++ blockTokens
  | _, .params => marks [.colon, .openBrace, .arrow]
  | _, .ascription => marks [.equals, .openBrace] ++ closers
  | _, .initial => closers
  | _, .typeParams => marks [.openParen, .equals, .openBrace] ++ keywords [.extendsWord]
  | _, .classDeclaration | _, .functionDeclaration => .mark .semicolon :: firstOfItem
  | _, .classMember => .mark .closeBrace :: memberWords
  | _, .aliasRest | _, .declaration | _, .importRest | _, .exportRest | _, .exportClause
  | _, .item => firstOfItem
  | _, .importClause | _, .importNames => keywords [.fromWord]
  | _, .items => []

def level : ⦃α : Type⦄ → Nonterminal α → Nat
  | _, .functionParams => 4
  | _, .type | _, .functionParam | _, .items => 3
  | _, .chain | _, .typeWithoutName | _, .importRest | _, .exportRest | _, .item => 2
  | _, .nameSuffix | _, .chainWithoutName | _, .objectMembers | _, .expr | _, .path
  | _, .arrowBody | _, .blockItem | _, .param | _, .declaration | _, .importClause => 1
  | _, _ => 0

def lookahead : Lookahead Nonterminal := ⟨follow, level⟩

theorem predictive : grammar.Predictive lookahead := by
  intro α n
  cases n <;> decide +kernel

end PropTables.Language
