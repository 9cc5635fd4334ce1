import PropTables.Source.Terminal
import PropTables.Text.DecimalDigit

/-!
What a lexeme of each class looks like: for every class a function that says how many characters at
the start of a text form one, if any do. Every count is the longest possible one.
-/

namespace PropTables.Pattern

def blockEnd : List Char → Option Nat
  | [] => none
  | '*' :: '/' :: _ => some 2
  | _ :: r => (blockEnd r).map (· + 1)

def comment : List Char → Option Nat
  | '/' :: '/' :: r => some (2 + (r.takeWhile (· ≠ '\n')).length)
  | '/' :: '*' :: r => (blockEnd r).map (· + 2)
  | _ => none

def digits (cs : List Char) : Nat :=
  (cs.takeWhile isDecimalDigit).length

def unsigned (cs : List Char) : Option Nat :=
  let n := digits cs
  match cs.drop n with
  | '.' :: r =>
    if 0 < n then some (n + 1 + digits r)
    else if 0 < digits r then some (1 + digits r) else none
  | _ => if 0 < n then some n else none

def exponent : List Char → Nat
  | [] => 0
  | c :: r =>
    let sign := if r.head? = some '-' ∨ r.head? = some '+' then 1 else 0
    let n := digits (r.drop sign)
    if (c = 'e' ∨ c = 'E') ∧ 0 < n then 1 + sign + n else 0

def number (cs : List Char) : Option Nat :=
  let sign := if cs.head? = some '-' then 1 else 0
  (unsigned (cs.drop sign)).map fun n => sign + n + exponent (cs.drop (sign + n))

/-- The rest of a quoted text up to and including the quote. A backslash takes any character but a
line feed with it; where `lines` is false a bare line feed ends the attempt as well. -/
def quotedRest (quote : Char) (lines : Bool) : List Char → Option Nat
  | [] => none
  | '\\' :: [] => none
  | '\\' :: c :: r => if c = '\n' then none else (quotedRest quote lines r).map (· + 2)
  | c :: r =>
    if c = quote then some 1
    else if c = '\n' ∧ !lines then none
    else (quotedRest quote lines r).map (· + 1)

def string : List Char → Option Nat
  | '"' :: r => (quotedRest '"' false r).map (· + 1)
  | '\'' :: r => (quotedRest '\'' false r).map (· + 1)
  | _ => none

def template : List Char → Option Nat
  | '\x60' :: r => (quotedRest '\x60' true r).map (· + 1)
  | _ => none

def startsName (c : Char) : Bool :=
  c.isAlpha || c == '_' || c == '$'

def continuesName (c : Char) : Bool :=
  startsName c || c.isDigit

def name : List Char → Option Nat
  | [] => none
  | c :: r => if startsName c then some (1 + (r.takeWhile continuesName).length) else none

def run (p : Char → Bool) (cs : List Char) : Option Nat :=
  let n := (cs.takeWhile p).length
  if 0 < n then some n else none

def isOperator (c : Char) : Bool :=
  "-+/%!^~@#\\".toList.contains c

def isBlank (c : Char) : Bool :=
  c == ' ' || c == '\t' || c == '\x0c' || c == '\r' || c == '\n'

def operator : List Char → Option Nat :=
  run isOperator

def blank : List Char → Option Nat :=
  run isBlank

def mark (cs : List Char) : Option (Mark × Nat) :=
  (Mark.all.find? fun m => m.spelling.toList.isPrefixOf cs).map fun m => (m, m.spelling.length)

end PropTables.Pattern
