import SharedConfig.Record.Source

/-!
# SharedConfig.Record.FromText

Records read from a text without a tree in between.  Any scalar is a text here, whatever it would
stand for as a value; what a record has no field for is not looked at.
-/

namespace SharedConfig

open Yaml

/-- Reading that can fail, with a count of the aliases that may still be followed. -/
abbrev TextDecoding := StateT Nat (Except DecodeError)

/-- A node of a document as it is written, with how deep collections may be nested in it. -/
structure Cursor where
  anchors : List (Nat × Tree)
  depth : Nat
  tree : Tree

namespace Cursor

def refuse {β : Type} (cause : ReadError) : TextDecoding β := throw (.unreadable cause)

/-- Reading of values as a part of reading records. -/
def lift {β : Type} (r : Reading β) : TextDecoding β := fun left =>
  match r.run left with
  | .ok a => .ok a
  | .error e => .error (.unreadable e)

/-- The node that an alias stands for. -/
def followed (c : Cursor) : TextDecoding Tree := lift (follow c.anchors c.tree)

/-- The same document at a node one level deeper. -/
def below (c : Cursor) (depth : Nat) (t : Tree) : Cursor := ⟨c.anchors, depth, t⟩

def textOf (c : Cursor) : TextDecoding String := do
  match ← c.followed with
  | .scalar s _ _ => pure s
  | _ => refuse .tagMismatch

/-- The text of a scalar that may stand for something else than a text: a plain one, or a literal
block whose tag says so. -/
def literalOf (c : Cursor) (tag : String) : TextDecoding String := do
  match ← c.followed with
  | .scalar s style props =>
    if style = .plain ∨ (style = .literal ∧ props.tag = some (coreTag tag)) then pure s
    else refuse .tagMismatch
  | _ => refuse .tagMismatch

def boolOf (c : Cursor) : TextDecoding Bool := do
  match boolOfWord? (← c.literalOf "bool") with
  | some b => pure b
  | none => refuse .tagMismatch

def wordOf (c : Cursor) : TextDecoding Nat := do
  match unsignedInt? maxWord (← c.literalOf "int").toList with
  | some i => pure i.toNat
  | none => refuse .tagMismatch

/-- Whether nothing is written for a node. -/
def isNothing : Tree → Bool
  | .scalar s style _ => s.isEmpty && decide (style = .plain)
  | _ => false

def itemsOf (c : Cursor) : TextDecoding (List Cursor) := do
  match ← c.followed with
  | .sequence items _ =>
    match c.depth with
    | 0 => refuse .tooDeep
    | depth + 1 => pure (items.map (c.below depth))
  | t => if isNothing t then pure [] else refuse .tagMismatch

def entriesOf (c : Cursor) : TextDecoding (List (Cursor × Cursor)) := do
  match ← c.followed with
  | .mapping es _ =>
    match c.depth with
    | 0 => refuse .tooDeep
    | depth + 1 => pure (es.map fun (k, v) => (c.below depth k, c.below depth v))
  | t => if isNothing t then pure [] else refuse .tagMismatch

def optionOf (c : Cursor) : TextDecoding (Option Cursor) := do
  let t ← c.followed
  let here := c.below c.depth t
  match t with
  | .scalar s .plain props =>
    match props.tag with
    | some tag =>
      if tag = coreTag "null" then
        if isNullWord s then pure none else refuse .tagMismatch
      else pure (some here)
    | none => if s.isEmpty || isNullWord s then pure none else pure (some here)
  | _ => pure (some here)

def variantOf (names : List String) (c : Cursor) : TextDecoding String := do
  let named (name : String) : TextDecoding String :=
    if names.contains name then pure name else throw (.unknownVariant name names)
  match ← c.followed with
  | .scalar s style props =>
    match localTag? props.tag with
    | none => named s
    | some name =>
      if style = .plain ∧ (s.isEmpty ∨ isNullWord s) then named name else refuse .tagMismatch
  | _ => refuse .tagMismatch

def valueOf (c : Cursor) : TextDecoding Value := lift (readTree c.anchors c.depth c.tree)

end Cursor

instance : Source Cursor TextDecoding where
  text _ := Cursor.textOf
  bool := Cursor.boolOf
  word := Cursor.wordOf
  items := Cursor.itemsOf
  entries _ := Cursor.entriesOf
  fieldName := Cursor.textOf
  option := Cursor.optionOf
  variant := Cursor.variantOf
  value := Cursor.valueOf

def readFromText {ρ : Type} (read : Cursor → TextDecoding ρ) (s : String) :
    Except DecodeError ρ :=
  match Document.ofText s with
  | .error e => .error (.unreadable (.malformed e))
  | .ok d =>
    match (read ⟨d.anchors, nestingLimit, d.root.getD .empty⟩).run d.aliasLimit with
    | .ok (r, _) => .ok r
    | .error e => .error e

end SharedConfig
