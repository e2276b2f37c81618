import SharedConfig.Decimal.Binary64

/-!
# SharedConfig.Decimal.Literal

Numerals: integers in a base with bounds, and decimal fractions with an optional exponent.
-/

namespace SharedConfig

def digitValue? (base : Nat) (c : Char) : Option Nat :=
  let value :=
    if '0' ≤ c ∧ c ≤ '9' then some (c.toNat - '0'.toNat)
    else if 'a' ≤ c ∧ c ≤ 'z' then some (c.toNat - 'a'.toNat + 10)
    else if 'A' ≤ c ∧ c ≤ 'Z' then some (c.toNat - 'A'.toNat + 10)
    else none
  match value with
  | some v => if v < base then some v else none
  | none => none

/-- The value of more digits behind `acc`. -/
def natOfDigitsFrom? (base : Nat) : Nat → List Char → Option Nat
  | acc, [] => some acc
  | acc, c :: rest =>
    match digitValue? base c with
    | some v => natOfDigitsFrom? base (acc * base + v) rest
    | none => none

def natOfDigits? (base : Nat) : List Char → Option Nat
  | [] => none
  | cs => natOfDigitsFrom? base 0 cs

def intOfDigits? (base : Nat) : List Char → Option Int
  | '+' :: cs => (natOfDigits? base cs).map Int.ofNat
  | '-' :: cs => (natOfDigits? base cs).map fun n => -(n : Int)
  | cs => (natOfDigits? base cs).map Int.ofNat

def boundedInt? (low high : Int) (base : Nat) (cs : List Char) : Option Int :=
  match intOfDigits? base cs with
  | some i => if low ≤ i ∧ i ≤ high then some i else none
  | none => none

def maxWord : Int := Int.pow 2 64 - 1

def maxSigned : Int := Int.pow 2 63 - 1

def minSigned : Int := -Int.pow 2 63

def isDecimalDigit (c : Char) : Bool := decide ('0' ≤ c) && decide (c ≤ '9')

namespace Binary64

/-- The exponent part of a numeral, absent or a letter `e` and a signed integer. -/
def exponentPart? : List Char → Option Int
  | [] => some 0
  | c :: cs => if c = 'e' ∨ c = 'E' then intOfDigits? 10 cs else none

/-- A numeral without a sign: digits, a point among them or not, and an exponent. -/
def magnitude? (negative : Bool) (cs : List Char) : Option Binary64 :=
  let whole := cs.takeWhile isDecimalDigit
  let afterWhole := cs.dropWhile isDecimalDigit
  let (fraction, afterFraction) := match afterWhole with
    | '.' :: rest => (rest.takeWhile isDecimalDigit, rest.dropWhile isDecimalDigit)
    | rest => ([], rest)
  match natOfDigits? 10 (whole ++ fraction), exponentPart? afterFraction with
  | some digits, some e => some (ofDecimal negative digits (e - (fraction.length : Int)))
  | _, _ => none

/-- A numeral, or one of the words for infinity and not-a-number in any case. -/
def unsigned? (negative : Bool) (cs : List Char) : Option Binary64 :=
  let word := String.ofList (cs.map Char.toLower)
  if word = "inf" ∨ word = "infinity" then some (.infinite negative)
  else if word = "nan" then some .nan
  else magnitude? negative cs

/-- The number that a numeral with an optional sign stands for. -/
def ofText? : List Char → Option Binary64
  | '+' :: cs => unsigned? false cs
  | '-' :: cs => unsigned? true cs
  | cs => unsigned? false cs

end Binary64

end SharedConfig
