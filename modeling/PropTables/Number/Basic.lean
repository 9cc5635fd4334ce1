import PropTables.Number.Shortest
import PropTables.Text.DecimalDigit

/-!
Numbers as literals write them: an integer of any size, or a floating-point number if the literal
has a point or an exponent.
-/

namespace PropTables

inductive Number where
  | integer (n : Int)
  | float (x : Binary64)
deriving DecidableEq, Repr

namespace Number

def maxIntegerDigits : Nat := 4300

def digitsValue (cs : List Char) : Nat :=
  cs.foldl (fun n c => 10 * n + (decimalDigit? c).getD 0) 0

def signedValue : List Char → Int
  | '-' :: cs => -digitsValue cs
  | '+' :: cs => digitsValue cs
  | cs => digitsValue cs

def decimalOf (cs : List Char) : Decimal :=
  let mantissa := cs.takeWhile fun c => c ≠ 'e' ∧ c ≠ 'E'
  let exponent := signedValue ((cs.drop mantissa.length).drop 1)
  let whole := mantissa.takeWhile (· ≠ '.')
  let places := (mantissa.drop whole.length).drop 1
  ⟨digitsValue (whole ++ places), exponent - places.length⟩

def ofLiteral? (literal : String) : Option Number :=
  let cs := literal.toList
  let negative := cs.head? = some '-'
  let body := if negative then cs.drop 1 else cs
  if cs.any fun c => c = '.' ∨ c = 'e' ∨ c = 'E' then
    some (.float (Binary64.ofDecimal negative (decimalOf body)))
  else if maxIntegerDigits < body.length then none
  else some (.integer (signedValue cs))

def toText : Number → String
  | .integer n => toString n
  | .float x => x.toText

/-- Equality of the values: an integer may equal a floating-point number, the two zeros are equal,
and no number equals a NaN. -/
def sameValue : Number → Number → Bool
  | .integer m, .integer n => m == n
  | .integer m, .float x => equalsInteger x m
  | .float x, .integer m => equalsInteger x m
  | .float x, .float y =>
    !x.isNaN && (x == y || (x.magnitude == 0 && y.magnitude == 0))
where
  equalsInteger (x : Binary64) (m : Int) : Bool :=
    let (num, den) := Binary64.fraction x.significand 2 x.scale
    x.isFinite && (if x.negative then -(num : Int) else num) == m * den

end Number

end PropTables
