import PropTables.Text.Hex
import PropTables.Text.CodePoint

/-!
The text that a string literal stands for. A literal is written between two equal quotes; a
backslash starts an escape, and one that is followed by a character without a meaning stays as it
is. `\N{…}` names a character; which names there are is left open.
-/

namespace PropTables

/-- The code points that the names of characters stand for. -/
abbrev CharacterNames := String → Option CodePoint

def CharacterNames.none : CharacterNames := fun _ => Option.none

namespace Text

def octalValue? (c : Char) : Option Nat :=
  if '0' ≤ c ∧ c ≤ '7' then some (c.toNat - 48) else none

def hexEscape? (places : Nat) (cs : List Char) : Option (Text × Nat) := do
  let digits := cs.take places
  if digits.length < places then none else
  let c ← CodePoint.ofNat? (← hexNumber? digits)
  return ([c], places + 1)

def octalEscape (cs : List Char) : Text × Nat :=
  let digits := (cs.take 3).map octalValue? |>.takeWhile Option.isSome |>.map (Option.getD · 0)
  ((CodePoint.ofNat? (digits.foldl (fun n d => 8 * n + d) 0)).toList, digits.length)

def nameEscape? (names : CharacterNames) (cs : List Char) : Option (Text × Nat) :=
  match cs with
  | '{' :: r =>
    let name := r.takeWhile (· ≠ '}')
    if name.length < r.length then
      (names (String.ofList name)).map fun c => ([c], name.length + 3)
    else none
  | _ => none

/-- What stands for the characters after a backslash: the text, and how many of the characters are
used up. There is none if the escape is malformed. -/
def escape? (names : CharacterNames) : List Char → Option (Text × Nat)
  | [] => none
  | c :: r =>
    let one (meant : Char) : Option (Text × Nat) := some ([.ofChar meant], 1)
    match c with
    | '\r' => some ([], 1)
    | '\\' => one '\\'
    | '\'' => one '\''
    | '"' => one '"'
    | 'a' => one '\x07'
    | 'b' => one '\x08'
    | 'f' => one '\x0c'
    | 'n' => one '\n'
    | 'r' => one '\r'
    | 't' => one '\t'
    | 'v' => one '\x0b'
    | 'x' => hexEscape? 2 r
    | 'u' => hexEscape? 4 r
    | 'U' => hexEscape? 8 r
    | 'N' => nameEscape? names r
    | c => if (octalValue? c).isSome then some (octalEscape (c :: r))
           else some ([.ofChar '\\', .ofChar c], 1)

def unescape? (names : CharacterNames) : (skip : Nat) → List Char → Option Text
  | _, [] => some []
  | skip + 1, _ :: r => unescape? names skip r
  | 0, c :: r =>
    if c = '\\' then do
      let (t, used) ← escape? names r
      return t ++ (← unescape? names used r)
    else if c = '\r' then none
    else (unescape? names 0 r).map (CodePoint.ofChar c :: ·)

/-- The text that a literal, quotes included, stands for; none if an escape in it is malformed, a
carriage return stands in it unescaped, or a null character stands in it at all. -/
def ofLiteral? (names : CharacterNames) (literal : String) : Option Text :=
  if '\x00' ∈ literal.toList then none
  else unescape? names 0 (literal.toList.drop 1).dropLast

end Text

end PropTables
