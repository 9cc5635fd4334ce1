/-!
The terminals of the language: names, literals, keywords and marks.
-/

namespace PropTables

inductive Keyword where
  | importWord | exportWord | fromWord | asWord | typeWord | typeofWord | interfaceWord | classWord
  | extendsWord | defaultWord | staticWord | functionWord | constWord | letWord | varWord
deriving DecidableEq, Repr

namespace Keyword

def all : List Keyword :=
  [importWord, exportWord, fromWord, asWord, typeWord, typeofWord, interfaceWord, classWord,
   extendsWord, defaultWord, staticWord, functionWord, constWord, letWord, varWord]

def spelling : Keyword → String
  | importWord => "import"
  | exportWord => "export"
  | fromWord => "from"
  | asWord => "as"
  | typeWord => "type"
  | typeofWord => "typeof"
  | interfaceWord => "interface"
  | classWord => "class"
  | extendsWord => "extends"
  | defaultWord => "default"
  | staticWord => "static"
  | functionWord => "function"
  | constWord => "const"
  | letWord => "let"
  | varWord => "var"

end Keyword

inductive Mark where
  | ellipsis | arrow | openExact | closeExact
  | ampersand | colon | comma | dot | equals | openBrace | less | openParen | openBracket | greater
  | question | closeBrace | closeParen | closeBracket | semicolon | star | bar
deriving DecidableEq, Repr

namespace Mark

/-- The marks, a longer one before each that it starts with. -/
def all : List Mark :=
  [ellipsis, arrow, openExact, closeExact, ampersand, colon, comma, dot, equals, openBrace, less,
   openParen, openBracket, greater, question, closeBrace, closeParen, closeBracket, semicolon, star,
   bar]

def spelling : Mark → String
  | ellipsis => "..."
  | arrow => "=>"
  | openExact => "\x7b|"
  | closeExact => "|\x7d"
  | ampersand => "&"
  | colon => ":"
  | comma => ","
  | dot => "."
  | equals => "="
  | openBrace => "\x7b"
  | less => "<"
  | openParen => "("
  | openBracket => "["
  | greater => ">"
  | question => "?"
  | closeBrace => "\x7d"
  | closeParen => ")"
  | closeBracket => "]"
  | semicolon => ";"
  | star => "*"
  | bar => "|"

end Mark

inductive Terminal where
  | name
  | string
  | number
  | template
  | operator
  | keyword (k : Keyword)
  | mark (m : Mark)
deriving DecidableEq, Repr

namespace Terminal

def ofWord (word : String) : Terminal :=
  match Keyword.all.find? fun k => k.spelling == word with
  | some k => .keyword k
  | none => .name

end Terminal

end PropTables
