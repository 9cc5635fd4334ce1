import PropTables.Grammar.Reading
import PropTables.Grammar.Rules

/-!
The grammar of the language: its rules, with the terminals that each nonterminal starts with.
-/

namespace PropTables.Language

def marks (ms : List Mark) : List Terminal :=
  ms.map .mark

def keywords (ks : List Keyword) : List Terminal :=
  ks.map .keyword

def firstOfOperand : List Terminal :=
  [.string, .number] ++ marks [.openBrace, .openExact, .openBracket, .openParen]

def firstOfMarkedType : List Terminal :=
  marks [.bar, .ampersand, .question] ++ firstOfOperand

def firstOfDeclaration : List Terminal :=
  keywords [.interfaceWord, .classWord, .functionWord, .constWord, .letWord, .varWord]

def firstOfItem : List Terminal :=
  .name :: keywords [.importWord, .exportWord, .typeWord] ++ firstOfDeclaration

def firstOfMember : List Terminal :=
  (.string :: words) ++ marks [.ellipsis, .openBracket, .openParen]

def first : Nonterminal α → List Terminal
  | .type => .name :: firstOfMarkedType
  | .typeWithoutName => firstOfMarkedType
  | .nameSuffix => marks [.dot, .less, .openBracket, .ampersand, .bar]
  | .chain => .name :: .mark .question :: firstOfOperand
  | .chainWithoutName => firstOfOperand
  | .suffix => marks [.openBracket, .ampersand, .bar]
  | .typeArgs => marks [.less]
  | .functionParams => .name :: .mark .ellipsis :: firstOfMarkedType
  | .functionParam => .name :: .mark .ellipsis :: firstOfMarkedType
  | .objectType => marks [.openBrace]
  | .exactObjectType => marks [.openExact]
  | .objectMembers => firstOfMember
  | .objectMember => firstOfMember
  | .expr =>
    [.string, .number, .template, .name] ++ marks [.openBrace, .openBracket, .openParen]
  | .path => marks [.dot, .openParen]
  | .callArgs => marks [.openParen]
  | .objectEntry => .string :: .mark .ellipsis :: words
  | .arrowBody => [.name, .string, .number, .mark .openBrace]
  | .block => marks [.openBrace]
  | .blockItem => .mark .openBrace :: blockTokens
  | .params => marks [.openParen]
  | .param => [.name, .mark .ellipsis, .mark .openBrace]
  | .ascription => marks [.colon]
  | .initial => marks [.equals]
  | .typeParams => marks [.less]
  | .classDeclaration => keywords [.classWord]
  | .classMember => .keyword .staticWord :: memberKeys
  | .functionDeclaration => keywords [.functionWord]
  | .aliasRest => [.name]
  | .declaration => firstOfDeclaration
  | .importRest =>
    [.string, .name] ++ keywords [.typeWord, .typeofWord] ++ marks [.openBrace, .star]
  | .importClause => .name :: marks [.openBrace, .star]
  | .importNames => marks [.openBrace]
  | .exportRest =>
    keywords [.defaultWord, .typeWord] ++ marks [.star, .openBrace] ++ firstOfDeclaration
  | .exportClause => marks [.openBrace]
  | .item => firstOfItem
  | .items => firstOfItem

def nullable : Nonterminal α → Bool
  | .nameSuffix | .suffix | .functionParams | .objectMembers | .path | .items => true
  | _ => false

def grammar : Grammar Nonterminal where
  rule := rule
  first := first
  nullable := nullable

end PropTables.Language
