import SharedConfig.Yaml.Tree
import SharedConfig.Yaml.Token.Lexer

/-!
# SharedConfig.Yaml.Tree.Grammar

The tree that a list of tokens spells.  Every function takes the tokens from the front and returns
what is left; the first argument bounds the nesting of calls.
-/

namespace SharedConfig.Yaml

/-- The tag handles that a document declares, with what they stand for. -/
abbrev TagHandles := List (String × Tag)

namespace Grammar

/-- A part of the tree and the tokens behind it. -/
abbrev Result (α : Type) := Except SyntaxError (α × List Token)

def defaultHandles : TagHandles :=
  [("!", .ofString "!"), ("!!", .ofString "tag:yaml.org,2002:")]

def fullTag (handles : TagHandles) (handle : String) (suffix : Tag) : Except SyntaxError Tag :=
  if handle.isEmpty then .ok suffix
  else
    match handles.lookup handle with
    | some lead => .ok (lead ++ suffix)
    | none => .error .undefinedTagHandle

/-- An anchor and a tag in either order, each at most once. -/
def properties (handles : TagHandles) : List Token → Result Properties
  | .anchor a :: .tag h s :: ts => (fullTag handles h s).map fun t => (⟨some t, some a⟩, ts)
  | .tag h s :: .anchor a :: ts => (fullTag handles h s).map fun t => (⟨some t, some a⟩, ts)
  | .anchor a :: ts => .ok (⟨none, some a⟩, ts)
  | .tag h s :: ts => (fullTag handles h s).map fun t => (⟨some t, none⟩, ts)
  | ts => .ok (.none, ts)

def blockValueMissing : List Token → Bool
  | .key :: _ => true
  | .value :: _ => true
  | .blockEnd :: _ => true
  | _ => false

def blockItemMissing : List Token → Bool
  | .blockEntry :: _ => true
  | .blockEnd :: _ => true
  | _ => false

/-- Whether nothing is written before the next item of a sequence that is not indented. -/
def flushItemMissing (ts : List Token) : Bool := blockItemMissing ts || blockValueMissing ts

/-- Whether nothing is written before a comma or the end of a flow collection. -/
def flowValueMissing (close : Token) : List Token → Bool
  | .flowEntry :: _ => true
  | t :: _ => decide (t = close)
  | [] => false

/-- Whether nothing is written before a colon, a comma or the end of a flow collection. -/
def flowKeyMissing (close : Token) : List Token → Bool
  | .value :: _ => true
  | ts => flowValueMissing close ts

/-- The comma before every entry of a flow collection but the first. -/
def comma (first : Bool) (ts : List Token) : Except SyntaxError (List Token) :=
  if first then .ok ts
  else
    match ts with
    | .flowEntry :: rest => .ok rest
    | _ => .error .unexpectedToken

mutual

/-- A node.  `block` admits block collections, `flush` a block sequence that is not indented. -/
def node (handles : TagHandles) : Nat → (block flush : Bool) → List Token → Result Tree
  | 0, _, _, _ => .error .exhausted
  | fuel + 1, block, flush, ts =>
    match ts with
    | .alias slot :: rest => .ok (.alias slot, rest)
    | _ =>
      match properties handles ts with
      | .error e => .error e
      | .ok (props, rest) =>
        match rest, block, flush with
        | .blockEntry :: _, _, true =>
          (flushItems handles fuel rest).map fun (items, rest) => (.sequence items props, rest)
        | .scalar text style :: rest, _, _ => .ok (.scalar text style props, rest)
        | .flowSequenceStart :: rest, _, _ =>
          (flowItems handles fuel true rest).map fun (items, rest) => (.sequence items props, rest)
        | .flowMappingStart :: rest, _, _ =>
          (flowEntries handles fuel true rest).map fun (es, rest) => (.mapping es props, rest)
        | .blockSequenceStart :: rest, true, _ =>
          (blockItems handles fuel rest).map fun (items, rest) => (.sequence items props, rest)
        | .blockMappingStart :: rest, true, _ =>
          (blockEntries handles fuel rest).map fun (es, rest) => (.mapping es props, rest)
        | rest, _, _ =>
          if props = .none then .error .unexpectedToken else .ok (.scalar "" .plain props, rest)

/-- A node, or nothing where `missing` says so. -/
def optionalNode (handles : TagHandles) : Nat → (missing block flush : Bool) → List Token → Result Tree
  | 0, _, _, _, _ => .error .exhausted
  | fuel + 1, missing, block, flush, ts =>
    if missing then .ok (.empty, ts) else node handles fuel block flush ts

def blockItems (handles : TagHandles) : Nat → List Token → Result (List Tree)
  | 0, _ => .error .exhausted
  | fuel + 1, ts =>
    match ts with
    | .blockEnd :: rest => .ok ([], rest)
    | .blockEntry :: rest =>
      match optionalNode handles fuel (blockItemMissing rest) true false rest with
      | .error e => .error e
      | .ok (item, rest) =>
        (blockItems handles fuel rest).map fun (items, rest) => (item :: items, rest)
    | _ => .error .unexpectedToken

/-- The items of a block sequence that is not indented below its key. -/
def flushItems (handles : TagHandles) : Nat → List Token → Result (List Tree)
  | 0, _ => .error .exhausted
  | fuel + 1, ts =>
    match ts with
    | .blockEntry :: rest =>
      match optionalNode handles fuel (flushItemMissing rest) true false rest with
      | .error e => .error e
      | .ok (item, rest) =>
        (flushItems handles fuel rest).map fun (items, rest) => (item :: items, rest)
    | rest => .ok ([], rest)

def blockEntries (handles : TagHandles) : Nat → List Token → Result (List (Tree × Tree))
  | 0, _ => .error .exhausted
  | fuel + 1, ts =>
    match ts with
    | .blockEnd :: rest => .ok ([], rest)
    | .key :: rest =>
      match optionalNode handles fuel (blockValueMissing rest) true true rest with
      | .error e => .error e
      | .ok (key, rest) =>
        match blockValue handles fuel rest with
        | .error e => .error e
        | .ok (value, rest) =>
          (blockEntries handles fuel rest).map fun (es, rest) => ((key, value) :: es, rest)
    | _ => .error .unexpectedToken

def blockValue (handles : TagHandles) : Nat → List Token → Result Tree
  | 0, _ => .error .exhausted
  | fuel + 1, ts =>
    match ts with
    | .value :: rest => optionalNode handles fuel (blockValueMissing rest) true true rest
    | rest => .ok (.empty, rest)

/-- The items of a flow sequence, of which a pair is a mapping of one entry. -/
def flowItems (handles : TagHandles) : Nat → (first : Bool) → List Token → Result (List Tree)
  | 0, _, _ => .error .exhausted
  | fuel + 1, first, ts =>
    match ts with
    | .flowSequenceEnd :: rest => .ok ([], rest)
    | _ =>
      match comma first ts with
      | .error e => .error e
      | .ok (.flowSequenceEnd :: rest) => .ok ([], rest)
      | .ok (.key :: rest) =>
        match flowPair handles fuel rest with
        | .error e => .error e
        | .ok (pair, rest) =>
          (flowItems handles fuel false rest).map fun (items, rest) =>
            (.mapping [pair] .none :: items, rest)
      | .ok rest =>
        match node handles fuel false false rest with
        | .error e => .error e
        | .ok (item, rest) =>
          (flowItems handles fuel false rest).map fun (items, rest) => (item :: items, rest)

/-- A pair in a flow sequence.  Where its key is missing, the token behind the key is passed over.
-/
def flowPair (handles : TagHandles) : Nat → List Token → Result (Tree × Tree)
  | 0, _ => .error .exhausted
  | fuel + 1, ts =>
    let key : Result Tree :=
      if flowKeyMissing .flowSequenceEnd ts then .ok (.empty, ts.tail)
      else node handles fuel false false ts
    match key with
    | .error e => .error e
    | .ok (key, rest) =>
      (flowValue handles fuel .flowSequenceEnd rest).map fun (value, rest) => ((key, value), rest)

def flowValue (handles : TagHandles) : Nat → (close : Token) → List Token → Result Tree
  | 0, _, _ => .error .exhausted
  | fuel + 1, close, ts =>
    match ts with
    | .value :: rest => optionalNode handles fuel (flowValueMissing close rest) false false rest
    | rest => .ok (.empty, rest)

/-- The entries of a flow mapping, where a node that no key token announces has an empty value. -/
def flowEntries (handles : TagHandles) : Nat → (first : Bool) → List Token → Result (List (Tree × Tree))
  | 0, _, _ => .error .exhausted
  | fuel + 1, first, ts =>
    match ts with
    | .flowMappingEnd :: rest => .ok ([], rest)
    | _ =>
      match comma first ts with
      | .error e => .error e
      | .ok (.flowMappingEnd :: rest) => .ok ([], rest)
      | .ok (.key :: rest) =>
        match optionalNode handles fuel (flowKeyMissing .flowMappingEnd rest) false false rest with
        | .error e => .error e
        | .ok (key, rest) =>
          match flowValue handles fuel .flowMappingEnd rest with
          | .error e => .error e
          | .ok (value, rest) =>
            (flowEntries handles fuel false rest).map fun (es, rest) => ((key, value) :: es, rest)
      | .ok rest =>
        match node handles fuel false false rest with
        | .error e => .error e
        | .ok (key, rest) =>
          (flowEntries handles fuel false rest).map fun (es, rest) => ((key, .empty) :: es, rest)

end

def directives (version : Bool) (handles : TagHandles) : List Token → Result TagHandles
  | .versionDirective major minor :: ts =>
    if version then .error .duplicateDirective
    else if major = 1 ∧ (minor = 1 ∨ minor = 2) then directives true handles ts
    else .error .incompatibleVersion
  | .tagDirective handle lead :: ts =>
    if (handles.lookup handle).isSome then .error .duplicateDirective
    else directives version (handles ++ [(handle, lead)]) ts
  | ts => .ok (handles ++ defaultHandles, ts)

def contentMissing : List Token → Bool
  | [] => true
  | .versionDirective .. :: _ => true
  | .tagDirective .. :: _ => true
  | .documentStart :: _ => true
  | .documentEnd :: _ => true
  | _ => false

/-- Whether directives or the mark of a document come first. -/
def startsExplicitly : List Token → Bool
  | .versionDirective .. :: _ => true
  | .tagDirective .. :: _ => true
  | .documentStart :: _ => true
  | _ => false

/-- Nothing but marks of an end may follow a document. -/
def atEnd : List Token → Bool
  | [] => true
  | .documentEnd :: ts => atEnd ts
  | _ => false

def root (ts : List Token) : Except SyntaxError (Option Tree) :=
  let fuel := 4 * ts.length + 8
  let finish : Result Tree → Except SyntaxError (Option Tree)
    | .error e => .error e
    | .ok (t, rest) => if atEnd rest then .ok (some t) else .error .severalDocuments
  if ts.isEmpty then .ok none
  else if startsExplicitly ts then
    match directives false [] ts with
    | .error e => .error e
    | .ok (handles, .documentStart :: rest) =>
      finish (optionalNode handles fuel (contentMissing rest) true false rest)
    | .ok _ => .error .missingDocumentStart
  else finish (node defaultHandles fuel true false ts)

end Grammar

namespace Document

def ofTokens (ts : List Token) : Except SyntaxError Document :=
  (Grammar.root ts).map ofRoot

def ofText (s : String) : Except SyntaxError Document :=
  match Token.scan s.toList with
  | .error e => .error e
  | .ok ts => ofTokens ts

end Document

end SharedConfig.Yaml
