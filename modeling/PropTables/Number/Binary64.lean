/-!
Numbers in the 64-bit binary floating-point format, as words of 64 bits: the value of a word, and
the word nearest to a decimal number.
-/

namespace PropTables

structure Binary64 where
  word : UInt64
deriving DecidableEq, Repr

structure Decimal where
  digits : Nat
  exponent : Int
deriving DecidableEq, Repr

def decimalLength (n : Nat) : Nat :=
  (Nat.toDigits 10 n).length

def roundedQuotient (num den : Nat) : Nat :=
  let q := num / den
  let r := 2 * (num % den)
  if r < den ∨ (r = den ∧ q % 2 = 0) then q else q + 1

namespace Binary64

def infinityBits : Nat := 0x7ff0000000000000

def signBit : Nat := 0x8000000000000000

def hiddenBit : Nat := 0x10000000000000

def ofParts (negative : Bool) (magnitude : Nat) : Binary64 :=
  ⟨UInt64.ofNat (if negative then signBit + magnitude else magnitude)⟩

def negative (x : Binary64) : Bool :=
  signBit ≤ x.word.toNat

def magnitude (x : Binary64) : Nat :=
  x.word.toNat % signBit

def isFinite (x : Binary64) : Bool :=
  x.magnitude < infinityBits

def isNaN (x : Binary64) : Bool :=
  infinityBits < x.magnitude

/-- A finite word has the absolute value `significand · 2 ^ scale`. -/
def significand (x : Binary64) : Nat :=
  if x.magnitude < hiddenBit then x.magnitude else hiddenBit + x.magnitude % hiddenBit

def scale (x : Binary64) : Int :=
  if x.magnitude < hiddenBit then -1074 else x.magnitude / hiddenBit - 1075

def fraction (n base : Nat) (e : Int) : Nat × Nat :=
  (n * base.pow e.toNat, base.pow (-e).toNat)

def lastPlace (num den : Nat) : Int :=
  let k : Int := num.log2 - den.log2
  let (n, d) := fraction den 2 k
  max (-1074) ((if num * d < n then k - 1 else k) - 52)

/-- The magnitude nearest to a positive fraction. A significand that is rounded up to the next power
of two carries into the exponent by itself. -/
def nearestMagnitude (num den : Nat) : Nat :=
  let q := lastPlace num den
  let (n, d) := fraction den 2 q
  min infinityBits ((q + 1074).toNat * hiddenBit + roundedQuotient (num * d) n)

/-- The word nearest to a decimal number. Numbers beyond every word are set aside first, so that no
huge power is computed. -/
def ofDecimal (negative : Bool) (x : Decimal) : Binary64 :=
  ofParts negative <|
    if x.digits = 0 ∨ decimalLength x.digits + x.exponent < -330 then 0
    else if 310 < decimalLength x.digits + x.exponent then infinityBits
    else
      let (num, den) := fraction x.digits 10 x.exponent
      nearestMagnitude num den

end Binary64

end PropTables
