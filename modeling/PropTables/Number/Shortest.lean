import PropTables.Number.Binary64

/-!
The shortest decimal number that reads back as a given floating-point number, and of several the
nearest one; and how it is written.
-/

namespace PropTables.Binary64

/-- The decimals that read back as a finite word lie between `lower` and `upper`, in quarters of
`2 ^ scale`, with the ends if the significand is even. -/
def lower (x : Binary64) : Nat :=
  if x.significand = hiddenBit ∧ x.scale ≠ -1074 then 4 * x.significand - 1
  else 4 * x.significand - 2

def upper (x : Binary64) : Nat :=
  4 * x.significand + 2

def leadingPower (x : Binary64) : Int :=
  let (num, den) := fraction (x.significand * Nat.pow 10 400) 2 x.scale
  decimalLength (num / den) - 401

def readsBack (x : Binary64) (n : Nat) (e : Int) : Option Nat :=
  let (tenNum, tenDen) := fraction 1 10 e
  let (num, den) := fraction 1 2 (x.scale - 2)
  let point := n * tenNum * den
  let unit := tenDen * num
  let inside :=
    if x.significand % 2 = 0 then x.lower * unit ≤ point ∧ point ≤ x.upper * unit
    else x.lower * unit < point ∧ point < x.upper * unit
  let value := 4 * x.significand * unit
  if inside then some (max point value - min point value) else none

/-- The neighbour of the word on the grid of the multiples of `10 ^ e` that reads back, the nearer
of the two, and at equal distance the even one. -/
def onGrid? (x : Binary64) (e : Int) : Option Decimal :=
  let (num, den) := fraction x.significand 2 x.scale
  let (tenNum, tenDen) := fraction 1 10 e
  let below := num * tenDen / (den * tenNum)
  match x.readsBack below e, x.readsBack (below + 1) e with
  | none, none => none
  | some _, none => some ⟨below, e⟩
  | none, some _ => some ⟨below + 1, e⟩
  | some a, some b =>
    if a < b ∨ (a = b ∧ below % 2 = 0) then some ⟨below, e⟩ else some ⟨below + 1, e⟩

/-- The shortest decimal of a finite word other than zero; 17 digits always suffice. -/
def shortest (x : Binary64) : Decimal :=
  ((List.range 17).findSome? fun (n : Nat) => x.onGrid? (x.leadingPower - n)).getD ⟨0, 0⟩

end PropTables.Binary64

namespace PropTables

structure FloatLayout where
  leastPositional : Int
  greatestPositional : Int
  exponentDigits : Nat

def FloatLayout.standard : FloatLayout := ⟨-4, 15, 2⟩

namespace FloatLayout

def padded (places n : Nat) : List Char :=
  let ds := Nat.toDigits 10 n
  List.replicate (places - ds.length) '0' ++ ds

def positional (digits : List Char) (lead : Int) : List Char :=
  let whole := (lead + 1).toNat
  let front :=
    if lead < 0 then ['0'] else digits.take whole ++ List.replicate (whole - digits.length) '0'
  let back := List.replicate (-(lead + 1)).toNat '0' ++ digits.drop whole
  front ++ '.' :: (if back.isEmpty then ['0'] else back)

def scientific (layout : FloatLayout) (digits : List Char) (lead : Int) : List Char :=
  let rest := digits.drop 1
  digits.take 1 ++ (if rest.isEmpty then [] else '.' :: rest) ++
    'e' :: (if lead < 0 then '-' else '+') :: padded layout.exponentDigits lead.natAbs

def write (layout : FloatLayout) (x : Decimal) : List Char :=
  let digits := (Nat.toDigits 10 x.digits).reverse.dropWhile (· = '0') |>.reverse
  let lead : Int := decimalLength x.digits - 1 + x.exponent
  if layout.leastPositional ≤ lead ∧ lead ≤ layout.greatestPositional then positional digits lead
  else layout.scientific digits lead

end FloatLayout

def Binary64.toText (x : Binary64) : String :=
  let sign := if x.negative then "-" else ""
  if x.isNaN then "nan"
  else if !x.isFinite then sign ++ "inf"
  else if x.magnitude = 0 then sign ++ "0.0"
  else sign ++ String.ofList (FloatLayout.standard.write x.shortest)

end PropTables
