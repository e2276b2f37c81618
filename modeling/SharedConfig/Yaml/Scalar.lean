import SharedConfig.Decimal.Literal
import SharedConfig.Decimal.Shortest

/-!
# SharedConfig.Yaml.Scalar

What an untagged plain scalar stands for: nothing, a truth value, a number or its own text.
-/

namespace SharedConfig.Yaml

/-- A number of a document: an integer of 64 bits, with or without sign, or a floating point one. -/
inductive Number where
  | int (i : Int)
  | float (x : Binary64)
  deriving DecidableEq, Repr, Inhabited

namespace Number

/-- Equality of numbers; an integer is no floating point number. -/
def same : Number → Number → Bool
  | .int i, .int j => decide (i = j)
  | .float x, .float y => x.sameNumber y
  | _, _ => false

def text : Number → String
  | .int i => toString i
  | .float x => x.write Binary64.documentStyle

end Number

/-- What a plain scalar stands for. -/
inductive Plain where
  | null
  | bool (b : Bool)
  | int (i : Int)
  /-- An integer of more than 64 and at most 128 bits, which no value can hold. -/
  | wide (i : Int)
  | float (x : Binary64)
  | text
  deriving DecidableEq, Repr

def isNullWord (s : String) : Bool := s = "null" || s = "Null" || s = "NULL" || s = "~"

def boolOfWord? (s : String) : Option Bool :=
  if s = "true" || s = "True" || s = "TRUE" then some true
  else if s = "false" || s = "False" || s = "FALSE" then some false
  else none

/-- Digits behind a leading zero are no number. -/
def isPaddedDigits (cs : List Char) : Bool :=
  let digits := match cs with
    | '-' :: rest => rest
    | '+' :: rest => rest
    | rest => rest
  match digits with
  | '0' :: c :: rest => (c :: rest).all isDecimalDigit
  | _ => false

def startsWithSign : List Char → Bool
  | '+' :: _ => true
  | '-' :: _ => true
  | _ => false

/-- The base that two characters announce. -/
def base? : Char → Char → Option Nat
  | '0', 'x' => some 16
  | '0', 'o' => some 8
  | '0', 'b' => some 2
  | _, _ => none

/-- An integer with an optional plus sign, in one of four bases, up to a bound. -/
def unsignedInt? (high : Int) (cs : List Char) : Option Int :=
  let body := match cs with
    | '+' :: rest => rest
    | rest => rest
  let based := match body with
    | a :: b :: rest =>
      match base? a b with
      | some base => if startsWithSign rest then none else boundedInt? 0 high base rest
      | none => none
    | _ => none
  match based with
  | some i => some i
  | none =>
    if startsWithSign body || isPaddedDigits cs then none else boundedInt? 0 high 10 body

/-- A negative integer, in one of four bases, down to a bound. -/
def negativeInt? (low high : Int) (cs : List Char) : Option Int :=
  let based := match cs with
    | '-' :: a :: b :: rest =>
      match base? a b with
      | some base => boundedInt? low high base ('-' :: rest)
      | none => none
    | _ => none
  match based with
  | some i => some i
  | none => if isPaddedDigits cs then none else boundedInt? low high 10 cs

/-- The integer that a text spells, if it has at most 128 bits. -/
def int? (cs : List Char) : Option Plain :=
  match unsignedInt? maxWord cs, negativeInt? minSigned maxSigned cs with
  | some i, _ => some (.int i)
  | none, some i => some (.int i)
  | none, none =>
    match unsignedInt? (Int.pow 2 128 - 1) cs,
        negativeInt? (-Int.pow 2 127) (Int.pow 2 127 - 1) cs with
    | some i, _ => some (.wide i)
    | none, some i => some (.wide i)
    | none, none => none

/-- The floating point number that a text spells; one that is too large is none. -/
def float? (cs : List Char) : Option Binary64 :=
  let s := String.ofList cs
  let body := match cs with
    | '+' :: rest => rest
    | rest => rest
  let bodyText := String.ofList body
  if body.length < cs.length ∧ startsWithSign body then none
  else if bodyText = ".inf" ∨ bodyText = ".Inf" ∨ bodyText = ".INF" then some (.infinite false)
  else if s = "-.inf" ∨ s = "-.Inf" ∨ s = "-.INF" then some (.infinite true)
  else if s = ".nan" ∨ s = ".NaN" ∨ s = ".NAN" then some .nan
  else
    match Binary64.ofText? body with
    | some x => if x.isFinite then some x else none
    | none => none

/-- What an untagged plain scalar stands for. -/
def Plain.ofText (s : String) : Plain :=
  if s.isEmpty || isNullWord s then .null
  else
    match boolOfWord? s with
    | some b => .bool b
    | none =>
      let cs := s.toList
      match int? cs with
      | some p => p
      | none =>
        if isPaddedDigits cs then .text
        else
          match float? cs with
          | some x => .float x
          | none => .text

/-- Whether a text, written plain, would not be read as that text. -/
def isAmbiguous (s : String) : Bool :=
  Plain.ofText s ≠ .text || isPaddedDigits s.toList

end SharedConfig.Yaml
