import PropTables.Text.CodePoint

/-!
Paths of files, with `/` between their parts.
-/

namespace PropTables.Path

abbrev slash : CodePoint := .ofChar '/'
abbrev dot : CodePoint := .ofChar '.'

def here : Text := [dot]
def up : Text := [dot, dot]

def parts : Text → List Text
  | [] => [[]]
  | c :: r =>
    if c = slash then [] :: parts r
    else match parts r with
      | [] => [[c]]
      | p :: ps => (c :: p) :: ps

def joined (ps : List Text) : Text :=
  [slash].intercalate ps

def isAbsolute (p : Text) : Bool :=
  p.head? = some slash

/-- The slashes at the start that count: two are kept as two, more are one. -/
def rootSlashes (p : Text) : Nat :=
  match (p.takeWhile (· = slash)).length with
  | 0 => 0
  | 2 => 2
  | _ => 1

def join (a b : Text) : Text :=
  if isAbsolute b then b
  else if a.isEmpty ∨ a.getLast? = some slash then a ++ b
  else a ++ slash :: b

/-- The path up to its last slash, without slashes at its end unless it consists of them. -/
def directory (p : Text) : Text :=
  let head := (p.reverse.dropWhile (· ≠ slash))
  let trimmed := head.dropWhile (· = slash)
  (if trimmed.isEmpty then head else trimmed).reverse

def pushPart (rooted : Bool) (done : List Text) (p : Text) : List Text :=
  if p = [] ∨ p = here then done
  else if p ≠ up then p :: done
  else match done with
    | [] => if rooted then [] else [up]
    | q :: qs => if q = up then p :: done else qs

/-- The path without empty parts and `.`, and with `..` at its start only. -/
def normal (p : Text) : Text :=
  let slashes := rootSlashes p
  let ps := (parts p).foldl (pushPart (0 < slashes)) []
  let path := List.replicate slashes slash ++ joined ps.reverse
  if path.isEmpty then here else path

def enter (place : List Text) (p : Text) : List Text :=
  if p = [] ∨ p = here then place
  else if p = up then place.dropLast
  else place ++ [p]

def plainParts (p : Text) : List Text :=
  (parts p).filter fun q => q ≠ [] ∧ q ≠ here

def ofPlainParts (slashes : Nat) (ps : List Text) : Text :=
  let path := List.replicate slashes slash ++ joined ps
  if path.isEmpty then here else path

def plain (p : Text) : Text :=
  ofPlainParts (rootSlashes p) (plainParts p)

def parent (p : Text) : Text :=
  ofPlainParts (rootSlashes p) (plainParts p).dropLast

def isRelative (p : Text) : Bool :=
  (up ++ [slash]).isPrefixOf p || (here ++ [slash]).isPrefixOf p || p == here || p == up

end PropTables.Path

namespace PropTables

structure ResolutionOptions where
  extensions : List Text
  indexNames : List Text

namespace ResolutionOptions

def defaultExtensions : List Text :=
  [".js", ".jsx", ".mjs", ".flow"].map .ofString

def default : ResolutionOptions :=
  ⟨defaultExtensions, [.ofString "index"]⟩

def candidates (o : ResolutionOptions) (base : Text) : List Text :=
  base :: o.extensions.map (base ++ ·) ++
    o.indexNames.flatMap fun index => o.extensions.map fun e => Path.join base (index ++ e)

end ResolutionOptions

end PropTables
