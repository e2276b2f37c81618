/-!
# SharedConfig.Decimal.Binary64

Binary floating point numbers of 64 bits, as data: a finite number is `significand * 2 ^ exponent`
with its sign, and rounding is exact arithmetic on `Nat`.

Main statements:

* `Binary64.ofDecimal_zero` — no digits mean zero, whatever the exponent.
-/

namespace SharedConfig

/-- The quotient `num / den` to the nearest integer, a half going to the even one. -/
def roundQuotient (num den : Nat) : Nat :=
  let q := num / den
  let r := num % den
  if 2 * r < den then q
  else if den < 2 * r then q + 1
  else if q % 2 = 0 then q else q + 1

/-- A 64-bit binary floating point number. -/
inductive Binary64 where
  | finite (negative : Bool) (significand : Nat) (exponent : Int)
  | infinite (negative : Bool)
  | nan
  deriving DecidableEq, Repr, Inhabited

namespace Binary64

/-- The least exponent, that of the subnormal numbers. -/
def minExponent : Int := -1074

def maxExponent : Int := 971

def zero (negative : Bool) : Binary64 := .finite negative 0 minExponent

def isFinite : Binary64 → Bool
  | .finite .. => true
  | _ => false

/-- Equality of numbers: the two zeros are one number, and not-a-number equals itself. -/
def sameNumber : Binary64 → Binary64 → Bool
  | .finite _ 0 _, .finite _ 0 _ => true
  | a, b => decide (a = b)

/-- The number nearest to `num / den`, for positive `num` and `den`. -/
def ofQuotient (negative : Bool) (num den : Nat) : Binary64 :=
  let scaled (e : Int) : Nat :=
    if e < 0 then roundQuotient (num * Nat.pow 2 (-e).toNat) den
    else roundQuotient num (den * Nat.pow 2 e.toNat)
  let finish (m : Nat) (e : Int) : Binary64 :=
    if maxExponent < e then .infinite negative else .finite negative m e
  let e := max minExponent ((Nat.log2 num : Int) - (Nat.log2 den : Int) - 53)
  let m := scaled e
  if m < Nat.pow 2 53 then finish m e
  else
    let m' := scaled (e + 1)
    if m' < Nat.pow 2 53 then finish m' (e + 1) else finish (m' / 2) (e + 2)

def ofDecimal (negative : Bool) (digits : Nat) (exponent : Int) : Binary64 :=
  if digits = 0 then zero negative
  else
    let magnitude : Int := ((Nat.toDigits 10 digits).length : Int) + exponent
    if 310 < magnitude then .infinite negative
    else if magnitude < -330 then zero negative
    else if exponent < 0 then ofQuotient negative digits (Nat.pow 10 (-exponent).toNat)
    else ofQuotient negative (digits * Nat.pow 10 exponent.toNat) 1

@[simp] theorem ofDecimal_zero (negative : Bool) (exponent : Int) :
    ofDecimal negative 0 exponent = zero negative := by
  simp [ofDecimal]

end Binary64

end SharedConfig
