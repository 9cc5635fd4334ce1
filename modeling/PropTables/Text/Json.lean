import PropTables.Text.Hex
import PropTables.Text.CodePoint

/-!
JSON text in ASCII: members and items are separated by a comma and a blank, and a code point outside
printable ASCII is written as one `\u` escape, or as two beyond U+FFFF.
-/

namespace PropTables

inductive Json where
  | null
  | bool (b : Bool)
  | integer (n : Int)
  | text (t : Text)
  | array (items : List Json)
  | object (members : List (String × Json))
deriving Inhabited

namespace Json

def string (s : String) : Json :=
  .text (Text.ofString s)

def optional (f : α → Json) : Option α → Json
  | none => .null
  | some a => f a

def unitEscape (n : Nat) : List Char :=
  '\\' :: 'u' :: hexDigits 4 n

def escapeOne (c : CodePoint) : List Char :=
  match c.val with
  | 0x22 => ['\\', '"']
  | 0x5c => ['\\', '\\']
  | 0x8 => ['\\', 'b']
  | 0x9 => ['\\', 't']
  | 0xa => ['\\', 'n']
  | 0xc => ['\\', 'f']
  | 0xd => ['\\', 'r']
  | n =>
    if 0x20 ≤ n ∧ n < 0x7f then c.toChar?.toList
    else if n < 0x10000 then unitEscape n
    else unitEscape (0xd800 + (n - 0x10000) / 0x400) ++ unitEscape (0xdc00 + (n - 0x10000) % 0x400)

def quoteText (t : Text) : String :=
  String.ofList ('"' :: t.flatMap escapeOne ++ ['"'])

mutual

def render : Json → String
  | .null => "null"
  | .bool b => if b then "true" else "false"
  | .integer n => toString n
  | .text t => quoteText t
  | .array items => "[" ++ ", ".intercalate (renderItems items) ++ "]"
  | .object members => "\x7b" ++ ", ".intercalate (renderMembers members) ++ "\x7d"

def renderItems : List Json → List String
  | [] => []
  | j :: js => render j :: renderItems js

def renderMembers : List (String × Json) → List String
  | [] => []
  | (name, j) :: rest => (quoteText (Text.ofString name) ++ ": " ++ render j) :: renderMembers rest

end

end Json

end PropTables
