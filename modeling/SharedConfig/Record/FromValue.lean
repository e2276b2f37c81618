import SharedConfig.Record.Source

/-!
# SharedConfig.Record.FromValue

Records read from values.  Tags are passed over, except where one names a variant.
-/

namespace SharedConfig

open Yaml

abbrev Decoding := Except DecodeError

namespace Value

def mismatch {β : Type} (v : Value) (expected : String) : Decoding β :=
  .error (.invalidType (.ofValue v) expected)

def textOf (expected : String) (v : Value) : Decoding String :=
  match v.untagged with
  | .string s => .ok s
  | _ => mismatch v expected

def boolOf (v : Value) : Decoding Bool :=
  match v.untagged with
  | .bool b => .ok b
  | _ => mismatch v "a boolean"

def wordOf (v : Value) : Decoding Nat :=
  match v.untagged with
  | .number (.int i) =>
    if i < 0 then .error (.invalidValue (.ofValue v) "u64") else .ok i.toNat
  | _ => mismatch v "u64"

def itemsOf (v : Value) : Decoding (List Value) :=
  match v.untagged with
  | .sequence items => .ok items
  | .null => .ok []
  | _ => mismatch v "a sequence"

def entriesOf (expected : String) (v : Value) : Decoding (List (Value × Value)) :=
  match v.untagged with
  | .mapping es => .ok es
  | .null => .ok []
  | _ => mismatch v expected

def optionOf : Value → Decoding (Option Value)
  | .null => .ok none
  | v => .ok (some v)

/-- A text names a variant, or a tag around an untagged null does. -/
def variantOf (names : List String) : Value → Decoding String
  | .string s => if names.contains s then .ok s else .error (.unknownVariant s names)
  | .tagged tag v =>
    let name := bareTag tag
    if names.contains name then
      match v with
      | .null => .ok name
      | .tagged .. => .error (.invalidType .tagged "unit")
      | v => mismatch v "unit"
    else .error (.unknownVariant name names)
  | v => mismatch v "a Value::Tagged enum"

end Value

instance : Source Value Decoding where
  text := Value.textOf
  bool := Value.boolOf
  word := Value.wordOf
  items := Value.itemsOf
  entries := Value.entriesOf
  fieldName := Value.textOf "field identifier"
  option := Value.optionOf
  variant := Value.variantOf
  value := .ok

end SharedConfig
