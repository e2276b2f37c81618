import SharedConfig.Yaml.Text
import SharedConfig.Text.Spelling

/-!
# SharedConfig.Yaml.Token.Lexer

The tokens of a text.  A mapping key is recognised only at the colon behind it, so the lexer
remembers where a key may have started and puts the key token there afterwards; indentation opens
and closes block collections.
-/

namespace SharedConfig.Yaml

/-- A place where a mapping key may have started. -/
structure KeyPlace where
  /-- Indentation says that here must be a key. -/
  required : Bool
  /-- The number of tokens before the key. -/
  token : Nat
  line : Nat
  column : Nat
  bytes : Nat
  deriving Repr

/-- The state of the lexer.  Tokens are kept in reverse. -/
structure Lexer where
  place : Place
  /-- Where the last token started. -/
  tokenStart : Place
  /-- The bytes on the line of that place, from some place of the line up to it. -/
  bytes : Nat
  tokens : List Token
  count : Nat
  /-- The column of the innermost block collection, and of those around it. -/
  indents : List Nat
  /-- The possible key of the innermost flow collection. -/
  keyPlace : Option KeyPlace
  /-- The possible keys of what is around it; as many as there are open flow collections. -/
  outerKeys : List (Option KeyPlace)
  keyAllowed : Bool
  /-- The anchors met so far, each name once, with their slots. -/
  anchors : List (String × Nat)

namespace Lexer

def start (cs : List Char) : Lexer := ⟨Place.start cs, Place.start cs, 0, [], 0, [], none, [], true, []⟩

def inFlow (l : Lexer) : Bool := !l.outerKeys.isEmpty

def push (l : Lexer) (t : Token) : Lexer := { l with tokens := t :: l.tokens, count := l.count + 1 }

/-- Put an element behind the first `n` ones of a reversed list. -/
def insertAt (t : Token) : Nat → List Token → List Token
  | 0, ts => t :: ts
  | _ + 1, [] => [t]
  | n + 1, u :: ts => u :: insertAt t n ts

/-- Put a token where `token` tokens stand before it. -/
def insert (l : Lexer) (token : Nat) (t : Token) : Lexer :=
  { l with tokens := insertAt t (l.count - token) l.tokens, count := l.count + 1 }

/-! ## Indentation -/

/-- Close the block collections that are indented deeper than `column`; all of them for `none`. -/
def closeIndents (column : Option Nat) : List Nat → Lexer → Lexer
  | [], l => { l with indents := [] }
  | i :: outer, l =>
    let deeper := match column with
      | some c => decide (c < i)
      | none => true
    if deeper then closeIndents column outer (l.push .blockEnd) else { l with indents := i :: outer }

def closeBlocks (l : Lexer) (column : Option Nat) : Lexer :=
  if l.inFlow then l else closeIndents column l.indents l

def opensAt (l : Lexer) (column : Nat) : Bool :=
  match l.indents with
  | [] => true
  | i :: _ => decide (i < column)

/-- Open a block collection at a column, its token at a given position, if none is open there. -/
def openBlock (l : Lexer) (column : Nat) (token : Option Nat) (t : Token) : Lexer :=
  if l.inFlow || !l.opensAt column then l
  else
    let l := { l with indents := column :: l.indents }
    match token with
    | some n => l.insert n t
    | none => l.push t

/-! ## Possible keys -/

/-- Forget a possible key; where a key must be, that is an error. -/
def dropKey (l : Lexer) : Except SyntaxError Lexer :=
  match l.keyPlace with
  | some k => if k.required then .error .keyWithoutValue else .ok { l with keyPlace := none }
  | none => .ok l

/-- Remember that a key may start here. -/
def saveKey (l : Lexer) : Except SyntaxError Lexer :=
  if l.keyAllowed then
    match l.dropKey with
    | .error e => .error e
    | .ok l =>
      let p := l.place
      let required := !l.inFlow && l.indents.head? = some p.column
      .ok { l with keyPlace := some ⟨required, l.count, p.line, p.column, l.bytes⟩ }
  else .ok l

/-- A key ends on the line where it starts, and within 1024 bytes. -/
def isStale (line bytes : Nat) (k : KeyPlace) : Bool :=
  decide (k.line < line) || decide (k.bytes + 1024 < bytes)

/-- The possible key, if it is not out of reach. -/
def refreshKey (line bytes : Nat) : Option KeyPlace → Except SyntaxError (Option KeyPlace)
  | some k =>
    if isStale line bytes k then (if k.required then .error .keyWithoutValue else .ok none)
    else .ok (some k)
  | none => .ok none

def refreshKeys (l : Lexer) : Except SyntaxError Lexer :=
  let refresh := refreshKey l.place.line l.bytes
  match refresh l.keyPlace, l.outerKeys.mapM refresh with
  | .ok k, .ok ks => .ok { l with keyPlace := k, outerKeys := ks }
  | .error e, _ => .error e
  | _, .error e => .error e

/-! ## White space -/

/-- Move over blanks, comments and line breaks, and over a byte order mark at the start of a line; a
tab is no blank where it could be indentation. -/
def skipToToken (inFlow : Bool) (allowed comment : Bool) (line column : Nat) :
    List Char → Place × Bool
  | [] => (⟨[], line, column⟩, allowed)
  | c :: rest =>
    if isBreak c then
      skipToToken inFlow (allowed || !inFlow) false (line + 1) 0 rest
    else if comment || c = ' ' || (c = '\t' && (inFlow || !allowed)) ||
        (c = byteOrderMark && column = 0) then
      skipToToken inFlow allowed comment line (column + 1) rest
    else if c = '#' then skipToToken inFlow allowed true line (column + 1) rest
    else (⟨c :: rest, line, column⟩, allowed)

def byteCount (cs : List Char) : Nat := cs.foldl (fun n c => n + c.utf8Size) 0

def skip (l : Lexer) : Lexer :=
  let p := l.place
  let (place, allowed) := skipToToken l.inFlow l.keyAllowed false p.line p.column p.rest
  let passed := l.tokenStart.rest.take (place.column - l.tokenStart.column)
  { l with
    place := place, tokenStart := place, keyAllowed := allowed
    bytes := if place.line = l.tokenStart.line then l.bytes + byteCount passed else 0 }

/-! ## Tags, anchors and directives -/

def word (p : Place) : String × Place :=
  let cs := p.rest.takeWhile isWordChar
  (String.ofList cs, p.advanceBy cs.length)

/-- The characters that may follow the name of an anchor. -/
def endsAnchor : List Char → Bool
  | [] => true
  | c :: _ =>
    isBlank c || isBreak c || c = '?' || c = ':' || c = ',' || c = ']' || c = '}' || c = '%' ||
      c = '@' || c = '`'

def anchorName (p : Place) : Except SyntaxError (String × Place) :=
  let (name, q) := word p.advance
  if name.isEmpty || !endsAnchor q.rest then .error .badAnchor else .ok (name, q)

/-- The characters of a tag, and how many characters of the text spell them.  `%` and two digits
stand for a byte, and bytes spell a character; `open?` is the one that lacks bytes. -/
def tagChars (verbatim : Bool) :
    (open? : Option Spelling) → List Char → Except SyntaxError (Tag × Nat)
  | none, [] => .ok ([], 0)
  | some _, [] => .error .badTag
  | open?, '%' :: a :: b :: rest =>
    match natOfDigits? 16 [a, b] with
    | none => .error .badTag
    | some byte =>
      match Spelling.next? open? byte with
      | none => .error .badTag
      | some s =>
        match tagChars verbatim (if s.missing = 0 then none else some s) rest with
        | .error e => .error e
        | .ok (tag, length) => .ok (if s.missing = 0 then s.char? :: tag else tag, length + 3)
  | some _, _ => .error .badTag
  | none, c :: rest =>
    if c = '%' then .error .badTag
    else if isWordChar c || isTagPunctuation c || (verbatim && (c = ',' || c = '[' || c = ']')) then
      match tagChars verbatim none rest with
      | .ok (tag, length) => .ok (some c :: tag, length + 1)
      | .error e => .error e
    else .ok ([], 0)

/-- A tag behind its handle, with the part of the handle that belongs to it.  It ends before the
first character zero. -/
def tagText (verbatim : Bool) (head : String) (p : Place) : Except SyntaxError (Tag × Place) :=
  match tagChars verbatim none p.rest with
  | .error e => .error e
  | .ok (tag, length) =>
    if length = 0 && head.isEmpty then .error .badTag
    else
      let whole := (head.toList.drop 1).map some ++ tag
      .ok (whole.takeWhile fun c => decide (c ≠ some '\x00'), p.advanceBy length)

/-- The handle of a tag: an exclamation mark, or a word between two of them. -/
def tagHandle (inDirective : Bool) (p : Place) : Except SyntaxError (String × Place) :=
  match p.rest with
  | '!' :: _ =>
    let (name, q) := word p.advance
    match q.rest with
    | '!' :: _ => .ok ("!" ++ name ++ "!", q.advance)
    | _ =>
      if inDirective && !name.isEmpty then .error .badTagHandle else .ok ("!" ++ name, q)
  | _ => .error .badTagHandle

def isFullHandle (handle : String) : Bool :=
  decide (2 ≤ handle.length) && handle.endsWith "!"

/-- A tag: verbatim, or with a handle, or with the handle `!`. -/
def readTag (inFlow : Bool) (p : Place) : Except SyntaxError (Token × Place) :=
  let read : Except SyntaxError (Token × Place) :=
    match p.rest with
    | _ :: '<' :: _ =>
      match tagText true "" (p.advanceBy 2) with
      | .error e => .error e
      | .ok (suffix, q) =>
        match q.rest with
        | '>' :: _ => .ok (.tag "" suffix, q.advance)
        | _ => .error .badTag
    | _ =>
      match tagHandle false p with
      | .error e => .error e
      | .ok (handle, q) =>
        if isFullHandle handle then
          match tagText false "" q with
          | .error e => .error e
          | .ok (suffix, q) => .ok (.tag handle suffix, q)
        else
          match tagText false handle q with
          | .error e => .error e
          | .ok (suffix, q) =>
            if suffix.isEmpty then .ok (.tag "" (Tag.ofString "!"), q) else .ok (.tag "!" suffix, q)
  match read with
  | .error e => .error e
  | .ok (t, q) =>
    let separated := match q.rest with
      | ',' :: _ => inFlow
      | cs => endsWord cs
    if separated then .ok (t, q) else .error .badTag

def versionNumber (p : Place) : Except SyntaxError (Nat × Place) :=
  let cs := p.rest.takeWhile isDecimalDigit
  match natOfDigits? 10 cs with
  | some n => if 9 < cs.length then .error .badVersion else .ok (n, p.advanceBy cs.length)
  | none => .error .badVersion

def readVersion (p : Place) : Except SyntaxError (Token × Place) :=
  match versionNumber (skipBlanks p) with
  | .error e => .error e
  | .ok (major, q) =>
    match q.rest with
    | '.' :: _ =>
      match versionNumber q.advance with
      | .error e => .error e
      | .ok (minor, r) => .ok (.versionDirective major minor, r)
    | _ => .error .badVersion

def readTagDirective (p : Place) : Except SyntaxError (Token × Place) :=
  match tagHandle true (skipBlanks p) with
  | .error e => .error e
  | .ok (handle, q) =>
    match q.rest with
    | c :: _ =>
      if isBlank c then
        match tagText true "" (skipBlanks q) with
        | .error e => .error e
        | .ok (lead, r) =>
          if endsWord r.rest then .ok (.tagDirective handle lead, r) else .error .badDirective
      else .error .badDirective
    | [] => .error .badDirective

def readDirective (p : Place) : Except SyntaxError (Token × Place) :=
  let (name, q) := word p.advance
  if name.isEmpty || !endsWord q.rest then .error .badDirective
  else
    let read :=
      if name = "YAML" then readVersion q
      else if name = "TAG" then readTagDirective q
      else .error .unknownDirective
    match read with
    | .error e => .error e
    | .ok (t, r) =>
      match endLine .badDirective r with
      | .error e => .error e
      | .ok r => .ok (t, r)

/-! ## Tokens -/

/-- Forget the possible key, then add a token of one character. -/
def mark (l : Lexer) (t : Token) (allowed : Bool) : Except SyntaxError Lexer :=
  match l.dropKey with
  | .error e => .error e
  | .ok l => .ok { l.push t with place := l.place.advance, keyAllowed := allowed }

/-- A directive or a mark of three characters ends every block. -/
def documentLevel (l : Lexer) : Except SyntaxError Lexer :=
  match (l.closeBlocks none).dropKey with
  | .error e => .error e
  | .ok l => .ok { l with keyAllowed := false }

/-- The bracket that opens a flow collection may itself start a key. -/
def openFlow (l : Lexer) (t : Token) : Except SyntaxError Lexer :=
  match l.saveKey with
  | .error e => .error e
  | .ok l =>
    .ok { l.push t with
      place := l.place.advance, keyAllowed := true
      keyPlace := none, outerKeys := l.keyPlace :: l.outerKeys }

def closeFlow (l : Lexer) (t : Token) : Except SyntaxError Lexer :=
  match l.dropKey with
  | .error e => .error e
  | .ok l =>
    let l := match l.outerKeys with
      | k :: ks => { l with keyPlace := k, outerKeys := ks }
      | [] => l
    .ok { l.push t with place := l.place.advance, keyAllowed := false }

def blockEntry (l : Lexer) : Except SyntaxError Lexer :=
  if l.inFlow then l.mark .blockEntry true
  else if l.keyAllowed then
    (l.openBlock l.place.column none .blockSequenceStart).mark .blockEntry true
  else .error .entryNotAllowed

def explicitKey (l : Lexer) : Except SyntaxError Lexer :=
  if l.inFlow then l.mark .key false
  else if l.keyAllowed then
    (l.openBlock l.place.column none .blockMappingStart).mark .key true
  else .error .keyNotAllowed

/-- The colon behind a key.  If a key may have started before, its token is put there. -/
def colon (l : Lexer) : Except SyntaxError Lexer :=
  let finish (l : Lexer) (allowed : Bool) : Lexer :=
    { l.push .value with place := l.place.advance, keyAllowed := allowed }
  match l.keyPlace with
  | some k =>
    let l := (l.insert k.token .key).openBlock k.column (some k.token) .blockMappingStart
    .ok (finish { l with keyPlace := none } false)
  | none =>
    if l.inFlow then .ok (finish l false)
    else if l.keyAllowed then
      .ok (finish (l.openBlock l.place.column none .blockMappingStart) true)
    else .error .valueNotAllowed

/-- A token that may start a key, read from the text. -/
def keyStart (l : Lexer) (read : Except SyntaxError (Token × Place)) : Except SyntaxError Lexer :=
  match l.saveKey, read with
  | .error e, _ => .error e
  | _, .error e => .error e
  | .ok l, .ok (t, p) => .ok { l.push t with place := p, keyAllowed := false }

/-- An anchor takes the slot whose number is the number of names before it. -/
def anchorAt (l : Lexer) (p : Place) : Except SyntaxError Lexer :=
  match anchorName p with
  | .error e => .error e
  | .ok (name, q) =>
    let slot := l.anchors.length
    let l := { l with anchors := (name, slot) :: l.anchors.filter fun a => a.1 ≠ name }
    l.keyStart (.ok (.anchor slot, q))

/-- An alias refers to the slot of the last anchor of its name. -/
def aliasAt (l : Lexer) (p : Place) : Except SyntaxError Lexer :=
  match anchorName p with
  | .error e => .error e
  | .ok (name, q) =>
    match l.anchors.lookup name with
    | some slot => l.keyStart (.ok (.alias slot, q))
    | none => .error (.unknownAnchor name)

/-- A block scalar ends its line, so a key may follow. -/
def blockText (l : Lexer) (literal : Bool) : Except SyntaxError Lexer :=
  match l.dropKey, blockScalar literal l.indents.head? l.place with
  | .error e, _ => .error e
  | _, .error e => .error e
  | .ok l, .ok r =>
    let style := if literal then .literal else .folded
    .ok { l.push (.scalar r.text style) with place := r.after, keyAllowed := true }

/-- A plain scalar; behind one that passed a line break a key may follow. -/
def plainText (l : Lexer) : Except SyntaxError Lexer :=
  let least := match l.indents with
    | [] => 0
    | i :: _ => i + 1
  match l.saveKey, plainScalar l.inFlow least l.place with
  | .error e, _ => .error e
  | _, .error e => .error e
  | .ok l, .ok r =>
    .ok { l.push (.scalar r.text .plain) with place := r.after, keyAllowed := r.passedBreak }

/-- Whether a plain scalar may start with these characters. -/
def startsPlain (inFlow : Bool) : List Char → Bool
  | [] => false
  | c :: rest =>
    let blankNext := match rest with
      | d :: _ => isBlank d
      | [] => false
    (!isIndicator c && !isBlank c) || (c = '-' && !blankNext) ||
      (!inFlow && (c = '?' || c = ':') && !endsWord rest)

def token (l : Lexer) (c : Char) (rest : List Char) : Except SyntaxError Lexer :=
  let p := l.place
  if p.column = 0 ∧ c = '%' then
    match l.documentLevel, readDirective p with
    | .error e, _ => .error e
    | _, .error e => .error e
    | .ok l, .ok (t, q) => .ok { l.push t with place := q }
  else if p.column = 0 ∧ startsDocumentMark p.rest then
    match l.documentLevel with
    | .error e => .error e
    | .ok l =>
      .ok { l.push (if c = '-' then .documentStart else .documentEnd) with place := p.advanceBy 3 }
  else if c = '[' then l.openFlow .flowSequenceStart
  else if c = '{' then l.openFlow .flowMappingStart
  else if c = ']' then l.closeFlow .flowSequenceEnd
  else if c = '}' then l.closeFlow .flowMappingEnd
  else if c = ',' then l.mark .flowEntry true
  else if c = '-' ∧ endsWord rest then l.blockEntry
  else if c = '?' ∧ (l.inFlow ∨ endsWord rest) then l.explicitKey
  else if c = ':' ∧ (l.inFlow ∨ endsWord rest) then l.colon
  else if c = '*' then l.aliasAt p
  else if c = '&' then l.anchorAt p
  else if c = '!' then l.keyStart (readTag l.inFlow p)
  else if c = '|' ∧ ¬ l.inFlow then l.blockText true
  else if c = '>' ∧ ¬ l.inFlow then l.blockText false
  else if c = '\'' ∨ c = '"' then
    l.keyStart ((quotedScalar p).map fun r => (.scalar r.text .quoted, r.after))
  else if startsPlain l.inFlow p.rest then l.plainText
  else .error (.noToken c)

def run : Nat → Lexer → Except SyntaxError (List Token)
  | 0, _ => .error .exhausted
  | fuel + 1, l =>
    match l.skip.refreshKeys with
    | .error e => .error e
    | .ok l =>
      let l := l.closeBlocks (some l.place.column)
      match l.place.rest with
      | [] => l.documentLevel.map fun l => l.tokens.reverse
      | c :: rest =>
        match l.token c rest with
        | .error e => .error e
        | .ok l => run fuel l

end Lexer

def Token.scan (cs : List Char) : Except SyntaxError (List Token) :=
  match cs.find? fun c => !isAllowed c with
  | some c => .error (.forbiddenCharacter c)
  | none =>
    let cs := normalizeBreaks cs
    Lexer.run (cs.length + 2) (Lexer.start cs)

end SharedConfig.Yaml
