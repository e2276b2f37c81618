import SharedConfig.Decimal.Binary64

/-!
# SharedConfig.Decimal.Shortest

The fewest decimal digits that read back as a given binary number, and the layouts in which digits
are written.

Main statements:

* `shortest_reads_back` — the digits chosen by the search read back as the number.
-/

namespace SharedConfig

/-- The decimal number `digits * 10 ^ exponent`. -/
structure Digits where
  digits : Nat
  exponent : Int
  deriving DecidableEq, Repr, Inhabited

namespace Digits

/-- The number with trailing zeros moved into the exponent. -/
def trim : Nat → Digits → Digits
  | 0, d => d
  | fuel + 1, d =>
    if d.digits ≠ 0 ∧ d.digits % 10 = 0 then trim fuel ⟨d.digits / 10, d.exponent + 1⟩ else d

/-- The exact decimal form of `significand * 2 ^ exponent`. -/
def exact (significand : Nat) (exponent : Int) : Digits :=
  if exponent < 0 then ⟨significand * Nat.pow 5 (-exponent).toNat, exponent⟩
  else ⟨significand * Nat.pow 2 exponent.toNat, 0⟩

/-- The two neighbours of a number on the grid that keeps `kept` digits, the nearer one first and of
two equally near ones the even one. -/
def neighbours (d : Digits) (length kept : Nat) : List Digits :=
  if length ≤ kept then [d]
  else
    let unit := Nat.pow 10 (length - kept)
    let low := d.digits / unit
    let rest := d.digits % unit
    let exponent := d.exponent + ((length - kept : Nat) : Int)
    let lowFirst := 2 * rest < unit || (2 * rest = unit && low % 2 = 0)
    if lowFirst then [⟨low, exponent⟩, ⟨low + 1, exponent⟩]
    else [⟨low + 1, exponent⟩, ⟨low, exponent⟩]

/-- The neighbours on the grids of `kept`, `kept + 1`, … digits. -/
def candidates (d : Digits) (length : Nat) : Nat → Nat → List Digits
  | 0, _ => [d]
  | grids + 1, kept => neighbours d length kept ++ candidates d length grids (kept + 1)

/-- The fewest digits that round to `significand * 2 ^ exponent`, and of those the nearest. -/
def shortest (significand : Nat) (exponent : Int) : Digits :=
  let d := exact significand exponent
  let length := (Nat.toDigits 10 d.digits).length
  let readsBack (c : Digits) : Bool :=
    Binary64.ofDecimal false c.digits c.exponent = .finite false significand exponent
  match (candidates d length 17 1).find? readsBack with
  | some c => trim 17 c
  | none => trim length d

/-- What the search finds reads back as the number. -/
theorem shortest_reads_back {significand : Nat} {exponent : Int} {c : Digits} {ds : List Digits}
    (h : ds.find? (fun c => decide
      (Binary64.ofDecimal false c.digits c.exponent = .finite false significand exponent)) =
        some c) :
    Binary64.ofDecimal false c.digits c.exponent = .finite false significand exponent := by
  simpa using List.find?_some h

def text (d : Digits) : List Char := Nat.toDigits 10 d.digits

/-- Positional notation, with a point and at least one digit on each side of it. -/
def positional (d : Digits) : List Char :=
  let cs := d.text
  if 0 ≤ d.exponent then cs ++ List.replicate d.exponent.toNat '0' ++ ['.', '0']
  else
    let places := (-d.exponent).toNat
    if places < cs.length then cs.take (cs.length - places) ++ '.' :: cs.drop (cs.length - places)
    else '0' :: '.' :: (List.replicate (places - cs.length) '0' ++ cs)

/-- One digit before the point, and a power of ten. -/
def scientific (d : Digits) : List Char :=
  let cs := d.text
  let power : Int := d.exponent + (cs.length : Int) - 1
  let mantissa := match cs with
    | [] => []
    | [c] => [c]
    | c :: rest => c :: '.' :: rest
  mantissa ++ 'e' :: (toString power).toList

end Digits

/-- How the text of a number is chosen: the powers of ten of the leading digit that are written
positionally, and the words for what is not finite. -/
structure NumberStyle where
  positional : Int → Bool
  infinity : String
  notANumber : String

namespace Binary64

/-- The text of a number in a given style; a minus sign stands before negative numbers, zero too. -/
def write (style : NumberStyle) : Binary64 → String
  | .nan => style.notANumber
  | .infinite negative => (if negative then "-" else "") ++ style.infinity
  | .finite negative significand exponent =>
    let d := if significand = 0 then ⟨0, 0⟩ else Digits.shortest significand exponent
    let power : Int := d.exponent + (d.text.length : Int) - 1
    let body := if style.positional power then d.positional else d.scientific
    String.ofList (if negative then '-' :: body else body)

/-- The notation of documents: positional from `0.00001` up to sixteen digits before the point. -/
def documentStyle : NumberStyle where
  positional power := decide (-6 < power) && decide (power < 16)
  infinity := ".inf"
  notANumber := ".nan"

/-- The notation of messages: always positional. -/
def plainStyle : NumberStyle where
  positional _ := true
  infinity := "inf"
  notANumber := "NaN"

end Binary64

end SharedConfig
