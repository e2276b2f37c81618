import SharedConfig.Yaml.Scalar

/-!
# SharedConfig.Yaml.Value

The values of documents.  A mapping keeps the order of its entries; any value may be a key.

Main statements:

* `Value.untagged_tagged` — a tag changes nothing about what is under it.
-/

namespace SharedConfig.Yaml

/-- A value of a document. -/
inductive Value where
  | null
  | bool (b : Bool)
  | number (n : Number)
  | string (s : String)
  | sequence (items : List Value)
  | mapping (entries : List (Value × Value))
  | tagged (tag : String) (value : Value)
  deriving Repr, Inhabited

/-- A tag without the exclamation mark that may stand before it. -/
def bareTag (tag : String) : String :=
  match tag.toList with
  | '!' :: c :: rest => String.ofList (c :: rest)
  | _ => tag

namespace Value

mutual

/-- Equality of values: numbers as numbers, tags without their mark, mappings in any order. -/
def same : Value → Value → Bool
  | .null, .null => true
  | .bool a, .bool b => a == b
  | .number a, .number b => a.same b
  | .string a, .string b => a == b
  | .sequence a, .sequence b => sameItems a b
  | .mapping a, .mapping b => a.length == b.length && entriesIn a b
  | .tagged t a, .tagged u b => bareTag t == bareTag u && same a b
  | _, _ => false

def sameItems : List Value → List Value → Bool
  | [], [] => true
  | a :: as, b :: bs => same a b && sameItems as bs
  | _, _ => false

/-- Whether every entry of the first mapping is one of the second. -/
def entriesIn : List (Value × Value) → List (Value × Value) → Bool
  | [], _ => true
  | (k, v) :: es, other => (other.any fun e => same k e.1 && same v e.2) && entriesIn es other

end

def untagged : Value → Value
  | .tagged _ v => v.untagged
  | v => v

/-- Set the value at a key: an entry with that key keeps its place and its key. -/
def insert (key value : Value) : List (Value × Value) → List (Value × Value)
  | [] => [(key, value)]
  | (k, v) :: es => if k.same key then (k, value) :: es else (k, v) :: insert key value es

@[simp] theorem untagged_tagged (tag : String) (v : Value) :
    (Value.tagged tag v).untagged = v.untagged := rfl

end Value

end SharedConfig.Yaml
