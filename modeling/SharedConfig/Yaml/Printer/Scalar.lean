import SharedConfig.Yaml.Chars
import SharedConfig.Yaml.Value

/-!
# SharedConfig.Yaml.Printer.Scalar

The written form of texts and tags: plain where that reads back as the same text, else between
single quotes, else between double quotes; texts of several lines as literal blocks.
-/

namespace SharedConfig.Yaml

/-! ## The choice of a form -/

/-- The forms of a text. -/
inductive Form where
  | plain
  | single
  | double
  | literal
  deriving DecidableEq, Repr

/-- Whether two characters of given kinds stand side by side. -/
def adjacent (p q : Char → Bool) : List Char → Bool
  | a :: b :: rest => (p a && q b) || adjacent p q (b :: rest)
  | _ => false

/-- Whether a plain text would be cut behind its first character: by a colon before a blank, or by a
comment mark behind one. -/
def hasInnerIndicator (afterBlank : Bool) : List Char → Bool
  | [] => false
  | c :: rest =>
    (c = ':' && endsWord rest) || (c = '#' && afterBlank) ||
      hasInnerIndicator (isBlank c || isBreak c) rest

/-- Whether a plain text would be taken for something else at its start. -/
def hasLeadingIndicator : List Char → Bool
  | [] => false
  | c :: rest =>
    if c = '?' || c = ':' || c = '-' then endsWord rest else isIndicator c

def startsLikeMark : List Char → Bool
  | '-' :: '-' :: '-' :: _ => true
  | '.' :: '.' :: '.' :: _ => true
  | _ => false

/-- Whether a text holds a plain scalar's worth: no indicator in the way. -/
def hasIndicator (cs : List Char) : Bool :=
  startsLikeMark cs || hasLeadingIndicator cs ||
    match cs with
    | [] => false
    | c :: rest => hasInnerIndicator (isBlank c || isBreak c) rest

def isMultiline (cs : List Char) : Bool := cs.any isBreak

/-- Whether only double quotes can hold a text: it has characters that are not printed, or a space
before a line break. -/
def needsEscapes (cs : List Char) : Bool :=
  cs.any (fun c => !isPrintable c) || adjacent (· = ' ') isBreak cs

def atEdge (p : Char → Bool) (cs : List Char) : Bool := cs.head?.any p || cs.getLast?.any p

def allowsPlain (cs : List Char) : Bool :=
  !(needsEscapes cs || isMultiline cs || atEdge (· = ' ') cs || hasIndicator cs)

def allowsSingle (cs : List Char) : Bool :=
  !(needsEscapes cs || adjacent isBreak (· = ' ') cs)

def allowsLiteral (cs : List Char) : Bool :=
  !(needsEscapes cs || cs.getLast? = some ' ')

def choose (s : String) : Form :=
  let cs := s.toList
  if cs.contains '\n' then (if allowsLiteral cs then .literal else .double)
  else if !isAmbiguous s && allowsPlain cs then .plain
  else if allowsSingle cs then .single
  else .double

/-! ## The forms -/

def padding (n : Nat) : List Char := List.replicate n ' '

/-- A text between single quotes, its quotes doubled; lines after the first are indented. -/
def singleQuoted (indent : Nat) (broken : Bool) : List Char → List Char
  | [] => if broken then padding indent else []
  | c :: rest =>
    if isBreak c then c :: singleQuoted indent true rest
    else
      (if broken then padding indent else []) ++ (if c = '\'' then ['\'', '\''] else [c]) ++
        singleQuoted indent false rest

def hexDigit (n : Nat) : Char := ((Nat.toDigits 16 n).headD '0').toUpper

/-- The last `width` digits of a number in base sixteen. -/
def hexText (width n : Nat) : List Char :=
  match width with
  | 0 => []
  | width + 1 => hexText width (n / 16) ++ [hexDigit (n % 16)]

def escaped (c : Char) : List Char :=
  if c = '\x00' then ['\\', '0']
  else if c = '\x07' then ['\\', 'a']
  else if c = '\x08' then ['\\', 'b']
  else if c = '\t' then ['\\', 't']
  else if c = '\n' then ['\\', 'n']
  else if c = '\x0b' then ['\\', 'v']
  else if c = '\x0c' then ['\\', 'f']
  else if c = '\r' then ['\\', 'r']
  else if c = '\x1b' then ['\\', 'e']
  else if c = '"' then ['\\', '"']
  else if c = '\\' then ['\\', '\\']
  else if c = '\u0085' then ['\\', 'N']
  else if c = '\u2028' then ['\\', 'L']
  else if c = '\u2029' then ['\\', 'P']
  else if isPrintable c then [c]
  else if c.toNat ≤ 0xFF then '\\' :: 'x' :: hexText 2 c.toNat
  else if c.toNat ≤ 0xFFFF then '\\' :: 'u' :: hexText 4 c.toNat
  else '\\' :: 'U' :: hexText 8 c.toNat

/-- The lines of a literal block; every line that is not empty is indented. -/
def literalLines (indent : Nat) (atStart : Bool) : List Char → List Char
  | [] => []
  | c :: rest =>
    if isBreak c then c :: literalLines indent true rest
    else (if atStart then padding indent else []) ++ c :: literalLines indent false rest

/-- The sign for the line breaks at the end of a literal block. -/
def chompingSign (cs : List Char) : List Char :=
  match cs.reverse with
  | [] => ['-']
  | [c] => if isBreak c then ['+'] else ['-']
  | c :: d :: _ => if !isBreak c then ['-'] else if isBreak d then ['+'] else []

/-- The header of a literal block; the indentation is stated where the text does not show it. -/
def literalHeader (cs : List Char) : List Char :=
  let indentation := match cs with
    | c :: _ => if c = ' ' || isBreak c then ['2'] else []
    | [] => []
  '|' :: indentation ++ chompingSign cs

/-- A line feed, unless the last line is already ended. -/
def lineEnd (cs : List Char) : List Char :=
  match cs.getLast? with
  | some c => if isBreak c then [] else ['\n']
  | none => []

def formText (indent : Nat) (s : String) : List Char :=
  let cs := s.toList
  match choose s with
  | .plain => cs
  | .single => '\'' :: singleQuoted indent false cs ++ ['\'']
  | .double => '"' :: cs.flatMap escaped ++ ['"']
  | .literal => literalHeader cs ++ '\n' :: literalLines indent true cs

/-- What ends the last line of a text in its form. -/
def formEnd (s : String) : List Char :=
  match choose s with
  | .literal => lineEnd s.toList
  | _ => ['\n']

def writeText (indent : Nat) (s : String) : String :=
  String.ofList (formText indent s ++ formEnd s)

/-! ## Tags -/

/-- The characters of a tag that are written as they are. -/
def isTagChar (c : Char) : Bool :=
  isWordChar c || c = ';' || c = '/' || c = '?' || c = ':' || c = '@' || c = '&' || c = '=' ||
    c = '+' || c = '$' || c = ',' || c = '.' || c = '~' || c = '*' || c = '\'' || c = '(' ||
    c = ')' || c = '[' || c = ']'

/-- A character of a tag: other characters stand as the numbers of their bytes. -/
def tagChar (c : Char) : List Char :=
  if isTagChar c then [c]
  else (String.singleton c).toUTF8.toList.flatMap fun b => '%' :: hexText 2 b.toNat

def markedTag (tag : String) : String :=
  let bare := (bareTag tag).toList.takeWhile (· ≠ '\x00')
  String.ofList (if bare.head? = some '!' then bare else '!' :: bare)

def writeTag (tag : String) : String :=
  match tag.toList with
  | ['!'] => "!<%21>"
  | _ :: rest => String.ofList ('!' :: rest.flatMap tagChar)
  | [] => ""

end SharedConfig.Yaml
