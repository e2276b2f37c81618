import SharedConfig.Dictionary
import SharedConfig.Record.Error

/-!
# SharedConfig.Record.Source

What records are read from.  A value of a tree and a text are read by different rules, so the
readers of records ask a `Source` for texts, fields and the rest.
-/

namespace SharedConfig

open Yaml

/-- A kind of thing that records can be read from, in a monad of its own. -/
class Source (α : Type) (m : outParam (Type → Type)) where
  /-- A text; the words say what is expected. -/
  text : String → α → m String
  bool : α → m Bool
  /-- An unsigned word of 64 bits. -/
  word : α → m Nat
  /-- The items of a sequence; nothing counts as no items. -/
  items : α → m (List α)
  /-- The entries of a mapping; nothing counts as no entries.  The words say what is expected. -/
  entries : String → α → m (List (α × α))
  /-- The name of a field. -/
  fieldName : α → m String
  /-- Nothing, or something. -/
  option : α → m (Option α)
  /-- One of some names. -/
  variant : List String → α → m String
  value : α → m Value

variable {α : Type} {m : Type → Type} [Monad m] [MonadExceptOf DecodeError m] [Source α m]

/-- Read the fields of a record in the order of the document.  `field` gives the reader of a known
field; others are passed over.  Also answers the names of the fields that were there. -/
def readFields {ρ : Type} (field : ρ → String → α → Option (m ρ)) :
    List (α × α) → ρ → List String → m (ρ × List String)
  | [], r, seen => pure (r, seen)
  | (k, x) :: rest, r, seen => do
    let name ← Source.fieldName k
    match field r name x with
    | none => readFields field rest r seen
    | some read =>
      if seen.contains name then throw (.duplicateField name)
      else
        let r ← read
        readFields field rest r (name :: seen)

/-- The first of the required fields that is missing is an error. -/
def requireFields {ρ : Type} (r : ρ) (seen : List String) : List String → m ρ
  | [] => pure r
  | name :: rest =>
    if seen.contains name then requireFields r seen rest else throw (.missingField name)

def readRecord {ρ : Type} (name : String) (initial : ρ) (required : List String)
    (field : ρ → String → α → Option (m ρ)) (x : α) : m ρ := do
  let es ← Source.entries ("struct " ++ name) x
  let (r, seen) ← readFields field es initial []
  requireFields r seen required

def readText (x : α) : m String := Source.text "a string" x

def readOption {ρ : Type} (read : α → m ρ) (x : α) : m (Option ρ) := do
  match ← Source.option x with
  | none => pure none
  | some y => some <$> read y

def readList {ρ : Type} (read : α → m ρ) (x : α) : m (List ρ) := do
  (← Source.items x).mapM read

/-- Put the entries of a mapping into a dictionary, later ones over earlier ones. -/
def readInto {ρ : Type} (read : α → m ρ) : List (α × α) → Dictionary ρ → m (Dictionary ρ)
  | [], d => pure d
  | (k, x) :: rest, d => do
    let key ← readText k
    let value ← read x
    readInto read rest (Dictionary.insert key value d)

def readDictionary {ρ : Type} (read : α → m ρ) (x : α) : m (Dictionary ρ) := do
  readInto read (← Source.entries "a map" x) []

end SharedConfig
