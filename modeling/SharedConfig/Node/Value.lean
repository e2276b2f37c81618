import SharedConfig.Node
import SharedConfig.Yaml.Value

/-!
# SharedConfig.Node.Value

Trees and the values of the notation.  A tree keeps the text of every scalar; a value of a tree
exists unless a collection has an empty tag.
-/

namespace SharedConfig

open Yaml

/-- A tag without the exclamation marks before it. -/
def plainTag (tag : String) : String := String.ofList (tag.toList.dropWhile (· = '!'))

namespace Node

/-- Attach a tag: to a scalar itself, around a collection. -/
def attachTag (tag : String) : Node → Node
  | .scalar s => .scalar { s with tag := some tag }
  | n => .tagged tag n

mutual

/-- The tree of a value; a key that is a collection is refused, with its shape. -/
def ofValue : Value → Except NodeKind Node
  | .null => .ok (.scalar .null)
  | .bool b => .ok (.scalar ⟨if b then "true" else "false", .bool, none⟩)
  | .number (.int i) => .ok (.scalar ⟨(Number.int i).text, .int, none⟩)
  | .number (.float x) => .ok (.scalar ⟨(Number.float x).text, .float, none⟩)
  | .string s => .ok (.string s)
  | .sequence items =>
    match ofItems items with
    | .error k => .error k
    | .ok ns => .ok (.sequence ns)
  | .mapping entries =>
    match ofEntries entries with
    | .error k => .error k
    | .ok m => .ok (.mapping m)
  | .tagged tag v =>
    match ofValue v with
    | .error k => .error k
    | .ok n => .ok (n.attachTag (plainTag tag))

def ofItems : List Value → Except NodeKind (List Node)
  | [] => .ok []
  | v :: vs =>
    match ofValue v, ofItems vs with
    | .error k, _ => .error k
    | _, .error k => .error k
    | .ok n, .ok ns => .ok (n :: ns)

def ofEntries : List (Value × Value) → Except NodeKind Mapping
  | [] => .ok []
  | (k, v) :: es =>
    match ofValue k with
    | .error kind => .error kind
    | .ok (.scalar key) =>
      match ofValue v, ofEntries es with
      | .error kind, _ => .error kind
      | _, .error kind => .error kind
      | .ok n, .ok m => .ok ((key, n) :: m)
    | .ok other => .error other.kind

end

end Node

/-- The value of a scalar; a text that does not fit its kind is a string. -/
def Scalar.untaggedValue (s : Scalar) : Value :=
  let cs := s.text.toList
  match s.kind with
  | .null => .null
  | .bool =>
    if s.text = "true" then .bool true
    else if s.text = "false" then .bool false
    else .string s.text
  | .int =>
    match boundedInt? minSigned maxSigned 10 cs with
    | some i => .number (.int i)
    | none =>
      match boundedInt? 0 maxWord 10 cs with
      | some i => .number (.int i)
      | none => .string s.text
  | .float =>
    if s.text = ".inf" ∨ s.text = "+.inf" then .number (.float (.infinite false))
    else if s.text = "-.inf" then .number (.float (.infinite true))
    else if s.text = ".nan" then .number (.float .nan)
    else
      match Binary64.ofText? cs with
      | some x => .number (.float x)
      | none => .string s.text
  | .str => .string s.text

/-- The value of a scalar with its tag; an empty tag is none. -/
def Scalar.toValue (s : Scalar) : Value :=
  match s.tag with
  | some tag => if tag = "" then s.untaggedValue else .tagged tag s.untaggedValue
  | none => s.untaggedValue

namespace Node

mutual

/-- The value of a tree.  A collection with an empty tag has none. -/
def toValue? : Node → Option Value
  | .scalar s => some s.toValue
  | .sequence items =>
    match toItems? items with
    | some vs => some (.sequence vs)
    | none => none
  | .mapping entries =>
    match toEntries? entries [] with
    | some es => some (.mapping es)
    | none => none
  | .tagged tag n =>
    match toValue? n with
    | some v => if tag = "" then none else some (.tagged tag v)
    | none => none

def toItems? : List Node → Option (List Value)
  | [] => some []
  | n :: ns =>
    match toValue? n, toItems? ns with
    | some v, some vs => some (v :: vs)
    | _, _ => none

/-- Keys that are equal as values become one entry, with the last of their values. -/
def toEntries? : List (Scalar × Node) → List (Value × Value) → Option (List (Value × Value))
  | [], done => some done
  | (key, n) :: rest, done =>
    match toValue? n with
    | some v => toEntries? rest (Value.insert key.toValue v done)
    | none => none

end

end Node

end SharedConfig
