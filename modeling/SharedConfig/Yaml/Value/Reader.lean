import SharedConfig.Yaml.Value
import SharedConfig.Yaml.Tree.Grammar

/-!
# SharedConfig.Yaml.Value.Reader

The value of a document: plain scalars resolved, aliases expanded.  Nesting and the number of
expanded aliases are limited.
-/

namespace SharedConfig.Yaml

/-- Why a text has no value. -/
inductive ReadError where
  | malformed (cause : SyntaxError)
  | duplicateKey
  | tooDeep
  | tooManyAliases
  | danglingAlias
  | tagMismatch
  | wideInteger
  deriving DecidableEq, Repr

def ReadError.message : ReadError → String
  | .malformed cause => cause.message
  | .duplicateKey => "duplicate entry in mapping"
  | .tooDeep => "recursion limit exceeded"
  | .tooManyAliases => "repetition limit exceeded"
  | .danglingAlias => "unknown anchor"
  | .tagMismatch => "value does not fit its tag"
  | .wideInteger => "integer out of range"

/-- Reading with a count of the aliases that may still be expanded. -/
abbrev Reading := StateT Nat (Except ReadError)

/-- How deep collections may be nested. -/
def nestingLimit : Nat := 128

/-- The tags that say how a scalar is to be read. -/
def coreTag (name : String) : Tag := .ofString ("tag:yaml.org,2002:" ++ name)

/-- Whether a tag starts with an exclamation mark. -/
def isLocal : Tag → Bool
  | some '!' :: _ => true
  | _ => false

/-- The name of a tag that is kept with the value: a local one that is a text. -/
def localTag? : Option Tag → Option String
  | none => none
  | some [some '!'] => some "!"
  | some (some '!' :: rest) => Tag.text? rest
  | some _ => none

def plainValue (s : String) : Except ReadError Value :=
  match Plain.ofText s with
  | .null => .ok .null
  | .bool b => .ok (.bool b)
  | .int i => .ok (.number (.int i))
  | .wide _ => .error .wideInteger
  | .float x => .ok (.number (.float x))
  | .text => .ok (.string s)

/-- The value of a scalar whose tag is not kept. -/
def scalarValue (s : String) (style : ScalarStyle) (tag : Option Tag) : Except ReadError Value :=
  match tag with
  | some tag =>
    if tag = coreTag "bool" then
      match boolOfWord? s with
      | some b => .ok (.bool b)
      | none => .error .tagMismatch
    else if tag = coreTag "int" then
      match int? s.toList with
      | some (.int i) => .ok (.number (.int i))
      | _ => .error .tagMismatch
    else if tag = coreTag "float" then
      match float? s.toList with
      | some x => .ok (.number (.float x))
      | none => .error .tagMismatch
    else if tag = coreTag "null" then
      if isNullWord s then .ok .null else .error .tagMismatch
    else if isLocal tag ∧ style = .plain then plainValue s
    else .ok (.string s)
  | none => if style = .plain then plainValue s else .ok (.string s)

def withTag (tag : Option Tag) (v : Value) : Value :=
  match localTag? tag with
  | some name => .tagged name v
  | none => v

/-- The node that an alias stands for; every other node stands for itself. -/
def follow (anchors : List (Nat × Tree)) : Tree → Reading Tree
  | .alias slot => fun left =>
    match left, anchors.lookup slot with
    | 0, _ => .error .tooManyAliases
    | left + 1, some t => .ok (t, left)
    | _ + 1, none => .error .danglingAlias
  | t => pure t

/-- The entries of a mapping, no key twice; `done` are the entries read, in reverse. -/
def readEntries (read : Tree → Reading Value) (done : List (Value × Value)) :
    List (Tree × Tree) → Reading (List (Value × Value))
  | [] => pure done.reverse
  | (k, v) :: rest => do
    let key ← read k
    if done.any fun e => e.1.same key then throw .duplicateKey
    let value ← read v
    readEntries read ((key, value) :: done) rest

/-- The value of a node that is no alias, with a way to read what it contains, if it may contain
anything. -/
def readNode (inner : Option (Tree → Reading Value)) : Tree → Reading Value
  | .scalar text style props =>
    match localTag? props.tag with
    | some name => (scalarValue text style none).map (Value.tagged name)
    | none => scalarValue text style props.tag
  | .sequence items props =>
    match inner with
    | some read => do return withTag props.tag (.sequence (← items.mapM read))
    | none => throw .tooDeep
  | .mapping entries props =>
    match inner with
    | some read => do return withTag props.tag (.mapping (← readEntries read [] entries))
    | none => throw .tooDeep
  | .alias _ => throw .danglingAlias

/-- The value of a node in which collections may be nested so deep. -/
def readTree (anchors : List (Nat × Tree)) : Nat → Tree → Reading Value
  | 0, t => do readNode none (← follow anchors t)
  | depth + 1, t => do readNode (some (readTree anchors depth)) (← follow anchors t)

/-- The value of a document; without a root it is null. -/
def Value.ofDocument (d : Document) : Except ReadError Value :=
  match d.root with
  | none => .ok .null
  | some t => ((readTree d.anchors nestingLimit t).run d.aliasLimit).map (·.1)

def Value.ofText (s : String) : Except ReadError Value :=
  match Document.ofText s with
  | .error e => .error (.malformed e)
  | .ok d => Value.ofDocument d

end SharedConfig.Yaml
