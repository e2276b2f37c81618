import SharedConfig.Yaml.Chars
import SharedConfig.Yaml.Token
import SharedConfig.Decimal.Literal

/-!
# SharedConfig.Yaml.Text

A place in a text, and the texts of scalars read from it: plain, quoted and block.  Every reader is
structural in the characters that are left.
-/

namespace SharedConfig.Yaml

/-- A place in a text: what is left of it, and the numbers of its line and column. -/
structure Place where
  rest : List Char
  line : Nat
  column : Nat
  deriving Repr, Inhabited

namespace Place

def start (cs : List Char) : Place := ⟨cs, 0, 0⟩

def advance (p : Place) : Place :=
  { p with rest := p.rest.tail, column := p.column + 1 }

def advanceBy (p : Place) (n : Nat) : Place :=
  { p with rest := p.rest.drop n, column := p.column + n }

def newLine (p : Place) : Place :=
  match p.rest with
  | _ :: rest => ⟨rest, p.line + 1, 0⟩
  | [] => p

end Place

/-- Text that is put together from words with blanks and line breaks between them, reversed. -/
structure Folding where
  text : List Char
  blanks : List Char
  firstBreak : List Char
  breaks : List Char
  broken : Bool
  deriving Repr, Inhabited

namespace Folding

def empty : Folding := ⟨[], [], [], [], false⟩

/-- A blank counts only before the first line break. -/
def blank (f : Folding) (c : Char) : Folding :=
  if f.broken then f else { f with blanks := c :: f.blanks }

/-- The first line break drops the blanks before it, later ones are kept. -/
def lineBreak (f : Folding) (c : Char) : Folding :=
  if f.broken then { f with breaks := c :: f.breaks }
  else { f with blanks := [], firstBreak := [c], broken := true }

/-- A line break that joins two lines without a blank. -/
def join (f : Folding) : Folding := { f with broken := true }

/-- What stands between two words: the blanks, or for one line feed a space, or the further breaks.
-/
def pending (f : Folding) : List Char :=
  if f.broken then
    if f.firstBreak = ['\n'] then (if f.breaks = [] then [' '] else f.breaks)
    else f.breaks ++ f.firstBreak
  else f.blanks

def settle (f : Folding) : Folding := ⟨f.pending ++ f.text, [], [], [], false⟩

/-- Add characters of a word, given in reverse. -/
def add (f : Folding) (reversed : List Char) : Folding := { f with text := reversed ++ f.text }

def toString (f : Folding) : String := String.ofList f.text.reverse

end Folding

/-! ## Plain scalars -/

/-- The end of a plain scalar: its text, the place after it, and whether line breaks were passed. -/
structure PlainScalar where
  text : String
  after : Place
  passedBreak : Bool

/-- Whether a plain scalar ends before these characters, inside a word. -/
def endsPlain (inFlow : Bool) : List Char → Bool
  | [] => true
  | ':' :: rest => endsWord rest
  | c :: _ => isBlank c || isBreak c || (inFlow && isFlowIndicator c)

def colonBeforeIndicator : List Char → Bool
  | ':' :: c :: _ => isFlowIndicator c || c = '?'
  | _ => false

def PlainScalar.ofFolding (f : Folding) (after : Place) : PlainScalar :=
  ⟨f.toString, after, f.broken⟩

/-- A plain scalar, from its second character on.  `between` says that blanks or breaks were read
since the last word. -/
def readPlain (inFlow : Bool) (indent : Nat) (between : Bool) (f : Folding)
    (line column : Nat) : List Char → Except SyntaxError PlainScalar
  | [] => .ok (.ofFolding f ⟨[], line, column⟩)
  | c :: rest =>
    if isBlank c then
      if f.broken ∧ column < indent ∧ c = '\t' then .error .tabInIndentation
      else readPlain inFlow indent true (f.blank c) line (column + 1) rest
    else if isBreak c then
      readPlain inFlow indent true (f.lineBreak c) (line + 1) 0 rest
    else
      if between ∧ ((¬ inFlow ∧ column < indent) ∨ (column = 0 ∧ startsDocumentMark (c :: rest)) ∨
          c = '#') then .ok (.ofFolding f ⟨c :: rest, line, column⟩)
      else if inFlow ∧ colonBeforeIndicator (c :: rest) then .error .colonInFlowText
      else if endsPlain inFlow (c :: rest) then .ok (.ofFolding f ⟨c :: rest, line, column⟩)
      else readPlain inFlow indent false (f.settle.add [c]) line (column + 1) rest

/-- The plain scalar at a place, in a block whose indentation is below `indent`. -/
def plainScalar (inFlow : Bool) (indent : Nat) (p : Place) : Except SyntaxError PlainScalar :=
  readPlain inFlow indent false .empty p.line p.column p.rest

/-! ## Quoted scalars -/

structure ReadText where
  text : String
  after : Place

/-- A text between single quotes, where a quote is written twice. -/
def readSingleQuoted (f : Folding) (line column : Nat) :
    List Char → Except SyntaxError ReadText
  | [] => .error .endInText
  | '\'' :: '\'' :: rest => readSingleQuoted (f.settle.add ['\'']) line (column + 2) rest
  | c :: rest =>
    if isBlank c then readSingleQuoted (f.blank c) line (column + 1) rest
    else if isBreak c then
      readSingleQuoted (f.lineBreak c) (line + 1) 0 rest
    else if column = 0 ∧ startsDocumentMark (c :: rest) then .error .documentMarkInText
    else if c = '\'' then .ok ⟨f.settle.toString, ⟨rest, line, column + 1⟩⟩
    else readSingleQuoted (f.settle.add [c]) line (column + 1) rest

def escapedChar? : Char → Option Char
  | '0' => some '\x00'
  | 'a' => some '\x07'
  | 'b' => some '\x08'
  | 't' => some '\t'
  | '\t' => some '\t'
  | 'n' => some '\n'
  | 'v' => some '\x0b'
  | 'f' => some '\x0c'
  | 'r' => some '\r'
  | 'e' => some '\x1b'
  | ' ' => some ' '
  | '"' => some '"'
  | '/' => some '/'
  | '\\' => some '\\'
  | 'N' => some '\u0085'
  | '_' => some '\u00a0'
  | 'L' => some '\u2028'
  | 'P' => some '\u2029'
  | _ => none

/-- The character whose number the hexadecimal digits give, unless it is no character. -/
def hexChar? (cs : List Char) : Option Char :=
  match natOfDigits? 16 cs with
  | some n => if n.isValidChar then some (Char.ofNat n) else none
  | none => none

def readDoubleQuoted (f : Folding) (line column : Nat) :
    List Char → Except SyntaxError ReadText
  | [] => .error .endInText
  | c :: rest =>
    if isBlank c then readDoubleQuoted (f.blank c) line (column + 1) rest
    else if isBreak c then
      readDoubleQuoted (f.lineBreak c) (line + 1) 0 rest
    else if column = 0 ∧ startsDocumentMark (c :: rest) then .error .documentMarkInText
    else if c = '"' then .ok ⟨f.settle.toString, ⟨rest, line, column + 1⟩⟩
    else if c = '\\' then
      match rest with
      | 'x' :: a :: b :: rest' =>
        match hexChar? [a, b] with
        | some e => readDoubleQuoted (f.settle.add [e]) line (column + 4) rest'
        | none => .error .badEscape
      | 'u' :: a :: b :: c :: d :: rest' =>
        match hexChar? [a, b, c, d] with
        | some e => readDoubleQuoted (f.settle.add [e]) line (column + 6) rest'
        | none => .error .badEscape
      | 'U' :: a :: b :: c :: d :: a' :: b' :: c' :: d' :: rest' =>
        match hexChar? [a, b, c, d, a', b', c', d'] with
        | some e => readDoubleQuoted (f.settle.add [e]) line (column + 10) rest'
        | none => .error .badEscape
      | e :: rest' =>
        if isBreak e then readDoubleQuoted f.settle.join (line + 1) 0 rest'
        else
          match escapedChar? e with
          | some e => readDoubleQuoted (f.settle.add [e]) line (column + 2) rest'
          | none => .error .badEscape
      | [] => .error .badEscape
    else readDoubleQuoted (f.settle.add [c]) line (column + 1) rest

/-- The quoted scalar at a place, whose first character is the quote. -/
def quotedScalar (p : Place) : Except SyntaxError ReadText :=
  let q := p.advance
  match p.rest with
  | '\'' :: _ => readSingleQuoted .empty q.line q.column q.rest
  | _ => readDoubleQuoted .empty q.line q.column q.rest

/-! ## Block scalars -/

/-- What becomes of the line breaks at the end of a block scalar. -/
inductive Chomping where
  | strip
  | clip
  | keep
  deriving DecidableEq, Repr

/-- The header of a block scalar: its chomping and the indentation that it states. -/
structure BlockHeader where
  chomping : Chomping
  increment : Option Nat

def chomping? : Char → Option Chomping
  | '+' => some .keep
  | '-' => some .strip
  | _ => none

def increment? (c : Char) : Option Nat :=
  if isDecimalDigit c then some (c.toNat - '0'.toNat) else none

/-- The signs behind the indicator of a block scalar, in either order, and the number of them. -/
def blockHeader (cs : List Char) : BlockHeader × Nat :=
  match cs with
  | [] => (⟨.clip, none⟩, 0)
  | a :: rest =>
    match chomping? a, increment? a with
    | some c, _ =>
      match rest with
      | b :: _ =>
        match increment? b with
        | some n => (⟨c, some n⟩, 2)
        | none => (⟨c, none⟩, 1)
      | [] => (⟨c, none⟩, 1)
    | none, some n =>
      match rest with
      | b :: _ =>
        match chomping? b with
        | some c => (⟨c, some n⟩, 2)
        | none => (⟨.clip, some n⟩, 1)
      | [] => (⟨.clip, some n⟩, 1)
    | none, none => (⟨.clip, none⟩, 0)

/-- A block scalar in the course of reading: the text, the line break behind its last line and the
empty lines after that, all reversed; the indentation, if known, and the deepest seen so far. -/
structure BlockText where
  text : List Char
  lastBreak : List Char
  breaks : List Char
  startedBlank : Bool
  indent : Option Nat
  deepest : Nat
  inLine : Bool

namespace BlockText

/-- Whether one more space belongs to the indentation. -/
def takesSpace (b : BlockText) (column : Nat) : Bool :=
  match b.indent with
  | none => true
  | some n => decide (column < n)

/-- The indentation of the text once its first line is met. -/
def settledIndent (b : BlockText) (least column : Nat) : Nat :=
  match b.indent with
  | some n => n
  | none => max (max (max b.deepest column) least) 1

/-- Start a line of text: put down the line breaks before it, folded if the style folds them. -/
def startLine (b : BlockText) (literal blank : Bool) (indent : Nat) : BlockText :=
  let folds := !literal && b.lastBreak = ['\n'] && !b.startedBlank && !blank
  let between :=
    if folds then (if b.breaks = [] then [' '] else b.breaks) else b.breaks ++ b.lastBreak
  { b with
    text := between ++ b.text, lastBreak := [], breaks := [], startedBlank := blank
    indent := some indent, inLine := true }

/-- The text with the line breaks at its end as the chomping says. -/
def chomp (b : BlockText) : Chomping → String
  | .strip => String.ofList b.text.reverse
  | .clip => String.ofList (b.lastBreak ++ b.text).reverse
  | .keep => String.ofList (b.breaks ++ b.lastBreak ++ b.text).reverse

end BlockText

/-- The lines of a block scalar.  `least` is the smallest indentation that the text may have. -/
def readBlock (literal : Bool) (chomping : Chomping) (least : Nat) (b : BlockText)
    (line column : Nat) : List Char → Except SyntaxError ReadText
  | [] => .ok ⟨b.chomp chomping, ⟨[], line, column⟩⟩
  | c :: rest =>
    if b.inLine then
      if isBreak c then
        readBlock literal chomping least { b with lastBreak := [c], inLine := false } (line + 1) 0 rest
      else readBlock literal chomping least { b with text := c :: b.text } line (column + 1) rest
    else if c = ' ' ∧ b.takesSpace column then
      readBlock literal chomping least b line (column + 1) rest
    else if c = '\t' ∧ b.takesSpace column then .error .tabInIndentation
    else if isBreak c then
      let b' := { b with breaks := c :: b.breaks, deepest := max b.deepest column }
      readBlock literal chomping least b' (line + 1) 0 rest
    else
      let indent := b.settledIndent least column
      if column = indent then
        let b' := b.startLine literal (isBlank c) indent
        readBlock literal chomping least { b' with text := c :: b'.text } line (column + 1) rest
      else .ok ⟨b.chomp chomping, ⟨c :: rest, line, column⟩⟩

def skipBlanks (p : Place) : Place := p.advanceBy (p.rest.takeWhile isBlank).length

def skipComment (p : Place) : Place :=
  match p.rest with
  | '#' :: _ => p.advanceBy (p.rest.takeWhile fun c => !isBreak c).length
  | _ => p

/-- Move to the next line over blanks and a comment; anything else is refused. -/
def endLine (cause : SyntaxError) (p : Place) : Except SyntaxError Place :=
  let q := skipComment (skipBlanks p)
  if endsLine q.rest then .ok q.newLine else .error cause

/-- The block scalar at a place, whose first character is the indicator, inside a block of the given
indentation, if any. -/
def blockScalar (literal : Bool) (parent : Option Nat) (p : Place) :
    Except SyntaxError ReadText :=
  let (header, length) := blockHeader p.advance.rest
  if header.increment = some 0 then .error .badBlockHeader
  else
    match endLine .badBlockHeader (p.advance.advanceBy length) with
    | .error e => .error e
    | .ok q =>
      let indent := header.increment.map (parent.getD 0 + ·)
      let least := match parent with
        | some n => n + 1
        | none => 0
      readBlock literal header.chomping least ⟨[], [], [], false, indent, 0, false⟩
        q.line q.column q.rest

end SharedConfig.Yaml
