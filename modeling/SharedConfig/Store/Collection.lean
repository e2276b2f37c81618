import SharedConfig.Node.Locate
import SharedConfig.Store.Error

/-!
# SharedConfig.Store.Collection

The collections of a document, read: records by name, and all records of a kind.
-/

namespace SharedConfig

def Node.collection (k : RecordKind) (root : Node) : Option (List Node) :=
  match root.locate k.collection with
  | some n => n.asSequence
  | none => none

namespace RecordKind

/-- The tree of the first entity of a name. -/
def entity? (k : RecordKind) (name : String) (root : Node) : Option Node :=
  match root.collection k with
  | some items => Entity.find? name items
  | none => none

def contains (k : RecordKind) (name : String) (root : Node) : Bool := (k.entity? name root).isSome

def find (k : RecordKind) (name : String) (root : Node) : Except StoreError k.Record :=
  match k.entity? name root with
  | none => .error (.notFound k.name name)
  | some n =>
    match k.decode n with
    | .error e => .error (.codec e)
    | .ok r => .ok r

/-- The records among some trees; what is not of the kind is passed over. -/
def decodable (k : RecordKind) : List Node → Except CodecError (List k.Record)
  | [] => .ok []
  | n :: rest =>
    match k.decode n with
    | .error .noValue => .error .noValue
    | .error _ => decodable k rest
    | .ok r =>
      match decodable k rest with
      | .error e => .error e
      | .ok rs => .ok (r :: rs)

def list (k : RecordKind) (root : Node) : Except StoreError (List k.Record) :=
  match root.collection k with
  | none => .ok []
  | some items =>
    match k.decodable items with
    | .error e => .error (.codec e)
    | .ok rs => .ok rs

end RecordKind

end SharedConfig
