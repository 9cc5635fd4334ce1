import PropTables.Text.Json
import PropTables.Validator.Basic

/-!
The text of a validator expression: on one line, without comments, or with every object literal
broken into one line for each field.
-/

namespace PropTables

def Constant.toText : Constant → String
  | null => "null"
  | boolean b => if b then "true" else "false"
  | number n => n.toText
  | text t => Json.quoteText t

namespace Validator

def literalText (value : Constant) (raw : Option String) : String :=
  raw.getD value.toText

def listText (items : List String) : String :=
  ", ".intercalate items

mutual

def line : Validator → String
  | identifier name _ => name
  | member value attr _ => line value ++ "." ++ attr
  | call func args _ => line func ++ "(" ++ listText (lines args) ++ ")"
  | literal value raw _ => literalText value raw
  | array items _ => "[" ++ listText (lines items) ++ "]"
  | object fields _ => "\x7b" ++ listText (fieldLines fields) ++ "\x7d"

def lines : List Validator → List String
  | [] => []
  | v :: vs => line v :: lines vs

def fieldLines : List (Field Validator) → List String
  | [] => []
  | f :: fs => fieldLine f :: fieldLines fs

def fieldLine : Field Validator → String
  | ⟨key, value, _, _⟩ => key ++ ": " ++ line value

end

def blanks (n : Nat) : String :=
  String.ofList (List.replicate n ' ')

/-- The comments before the brace of an object literal. A line comment would take the brace with it,
so the line ends after it. -/
def openingComments (margin : Nat) (comments : List String) : String :=
  String.join (comments.map fun c =>
    if c.startsWith "//" then c ++ "\n" ++ blanks margin else c ++ " ")

def trailingComments (comments : List String) : String :=
  if comments.isEmpty then "" else " " ++ " ".intercalate comments

mutual

def pretty (indent : Nat) (level : Nat) : Validator → String
  | identifier name _ => name
  | member value attr _ => pretty indent level value ++ "." ++ attr
  | call func args _ =>
    pretty indent level func ++ "(" ++ listText (prettyItems indent level args) ++ ")"
  | literal value raw _ => literalText value raw
  | array items _ => "[" ++ listText (prettyItems indent level items) ++ "]"
  | object fields notes =>
    openingComments (indent * level) notes.leading ++
      match prettyFields indent level fields with
      | [] => "\x7b\x7d"
      | rows => "\n".intercalate ("\x7b" :: rows ++ [blanks (indent * level) ++ "\x7d"])

def prettyItems (indent : Nat) (level : Nat) : List Validator → List String
  | [] => []
  | v :: vs => pretty indent level v :: prettyItems indent level vs

def prettyFields (indent : Nat) (level : Nat) : List (Field Validator) → List String
  | [] => []
  | f :: fs => prettyField indent level f ++ prettyFields indent level fs

def prettyField (indent : Nat) (level : Nat) : Field Validator → List String
  | ⟨key, value, _, notes⟩ =>
    let margin := blanks (indent * (level + 1))
    notes.leading.map (margin ++ ·) ++
      [margin ++ key ++ ": " ++ pretty indent (level + 1) value ++ "," ++
        trailingComments notes.trailing]

end

def notExpression (form : String) : String :=
  "not a validator expression: " ++ form

def render (indent : Option Nat) (v : Validator) : String :=
  match indent with
  | none => v.line
  | some n => v.pretty n 0

end Validator

end PropTables
