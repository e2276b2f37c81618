import SharedConfig.Yaml.Printer.Scalar

/-!
# SharedConfig.Yaml.Printer

The text of a value: collections as blocks, the items of a sequence flush with the key they belong
to, every node up to the end of its line.
-/

namespace SharedConfig.Yaml

/-- Why a value cannot be written. -/
inductive PrintError where
  /-- A tagged value directly under a tag. -/
  | nestedTag
  /-- The only key of a mapping without tag is tagged. -/
  | taggedOnlyKey
  deriving DecidableEq, Repr

def PrintError.message : PrintError → String
  | .nestedTag => "serializing nested enums in YAML is not supported"
  | .taggedOnlyKey => "the only key of a mapping is tagged"

/-- Where a node stands: alone, behind a dash, behind a mark of a mapping that starts its line, or
behind a key; with the indentation of the collection around it. -/
inductive Position where
  | root
  | item (indent : Nat)
  | marked (indent : Nat)
  | value (indent : Nat)
  deriving DecidableEq, Repr

namespace Position

/-- What separates a node from what stands before it. -/
def lead : Position → String
  | root => ""
  | _ => " "

/-- The indentation of the lines of a mapping or a text here. -/
def inner : Position → Nat
  | root => 0
  | item n => n + 2
  | marked n => n + 2
  | value n => n + 2

def text : Position → Nat
  | root => 2
  | p => p.inner

/-- The indentation of the items of a sequence here; they are flush with a key before them, unless
they start on its line. -/
def items (tagged : Bool) : Position → Nat
  | marked n => if tagged then n else n + 2
  | value n => n
  | p => p.inner

/-- Whether a collection starts on the same line. -/
def sameLine : Position → Bool
  | value _ => false
  | _ => true

end Position

def Value.scalarText? : Value → Option String
  | .null => some "null"
  | .bool true => some "true"
  | .bool false => some "false"
  | .number n => some n.text
  | _ => none

def opening (p : Position) (tag : Option String) : String :=
  match tag with
  | some t => p.lead ++ writeTag t ++ " "
  | none => p.lead

/-- The lines of a collection, each part with its end of line. -/
def lines (p : Position) (tag : Option String) (indent : Nat) (parts : List String) : String :=
  let pad := String.ofList (padding indent)
  match tag, parts with
  | _, [] => ""
  | some t, parts => p.lead ++ writeTag t ++ "\n" ++ String.join (parts.map (pad ++ ·))
  | none, part :: rest =>
    (if p.sameLine then p.lead else "\n" ++ pad) ++ part ++ String.join (rest.map (pad ++ ·))

/-- A key that fits before its colon: one line of at most 128 bytes. -/
def simpleKey (tag : Option String) (text : String) (written : String) : Option String :=
  let size := text.utf8ByteSize + (tag.map String.utf8ByteSize).getD 0
  if isMultiline text.toList || 128 < size then none
  else some ((tag.map (writeTag · ++ " ")).getD "" ++ written)

def simpleKey? (tag : Option String) : Value → Option String
  | .string s => simpleKey tag s (String.ofList (formText 0 s))
  | .sequence [] => simpleKey tag "" "[]"
  | .mapping [] => simpleKey tag "" "{}"
  | .tagged t v =>
    match tag with
    | none => simpleKey? (some (markedTag t)) v
    | some _ => none
  | v =>
    match v.scalarText? with
    | some s => simpleKey tag s s
    | none => none

/-- Whether a mapping has one entry, and that has a tagged key. -/
def onlyKeyTagged : List (Value × Value) → Bool
  | [(.tagged _ _, _)] => true
  | _ => false

mutual

/-- The text of a node with its end of line. -/
def write (p : Position) (tag : Option String) : Value → Except PrintError String
  | .null => .ok (opening p tag ++ "null\n")
  | .bool b => .ok (opening p tag ++ (if b then "true\n" else "false\n"))
  | .number n => .ok (opening p tag ++ n.text ++ "\n")
  | .string s => .ok (opening p tag ++ writeText p.text s)
  | .sequence items =>
    match items with
    | [] => .ok (opening p tag ++ "[]\n")
    | item :: rest =>
      let indent := p.items tag.isSome
      match writeItems indent (item :: rest) with
      | .error e => .error e
      | .ok parts => .ok (lines p tag indent parts)
  | .mapping entries =>
    match entries with
    | [] => .ok (opening p tag ++ "{}\n")
    | entry :: rest =>
      if tag.isNone && onlyKeyTagged (entry :: rest) then .error .taggedOnlyKey
      else
        match writeEntries p.inner (entry :: rest) with
        | .error e => .error e
        | .ok parts => .ok (lines p tag p.inner parts)
  | .tagged t v =>
    match tag with
    | some _ => .error .nestedTag
    | none => write p (some (markedTag t)) v

def writeItems (indent : Nat) : List Value → Except PrintError (List String)
  | [] => .ok []
  | v :: vs =>
    match write (.item indent) none v, writeItems indent vs with
    | .error e, _ => .error e
    | _, .error e => .error e
    | .ok s, .ok rest => .ok (("-" ++ s) :: rest)

def writeEntries (indent : Nat) : List (Value × Value) → Except PrintError (List String)
  | [] => .ok []
  | (k, v) :: es =>
    let entry : Except PrintError String :=
      match simpleKey? none k with
      | some key => (write (.value indent) none v).map fun s => key ++ ":" ++ s
      | none =>
        match write (.marked indent) none k, write (.marked indent) none v with
        | .error e, _ => .error e
        | _, .error e => .error e
        | .ok key, .ok s => .ok ("?" ++ key ++ String.ofList (padding indent) ++ ":" ++ s)
    match entry, writeEntries indent es with
    | .error e, _ => .error e
    | _, .error e => .error e
    | .ok s, .ok rest => .ok (s :: rest)

end

def Value.print (v : Value) : Except PrintError String := write .root none v

end SharedConfig.Yaml
