import PropTables.Grammar.Table

/-!
Reading a module from its source text.
-/

namespace PropTables.Module

/-- Why the tokens of a text are no module: the first token that cannot go on, else the character
at which no token starts, else the end. -/
def refusal (l : Lexing) (unread : List Token) : Refusal :=
  match unread, l.stuck with
  | t :: _, _ => .unexpectedToken t.text t.start
  | [], some (c, p) => .unexpectedCharacter c p
  | [], none => .unexpectedEnd ((l.tokens.getLast?.map (·.start)).getD .first)

def readTokens (l : Lexing) : Except Refusal (List (Build Item)) :=
  match Language.grammar.read .items l.tokens with
  | .error unread => .error (refusal l unread)
  | .ok items => if l.stuck.isSome then .error (refusal l []) else .ok items

def ofSource (names : CharacterNames) (source : String) (file : Option String) : Except SourceFault Module :=
  let l := Lexing.ofSource source
  match readTokens l with
  | .error r => .error (.refused r)
  | .ok items => do
    let items ← (items.mapM id).run ⟨l.comments, names⟩
    return ⟨items, file⟩

end PropTables.Module
