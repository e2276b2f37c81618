import SharedConfig.Entity
import SharedConfig.KeyPath
import SharedConfig.Node.Document
import SharedConfig.Record.Context
import SharedConfig.Record.FromText
import SharedConfig.Record.FromValue

/-!
# SharedConfig.Record.Kind

The kinds of records that a document holds, each in a collection of its own, and the way between a
record and its tree.

Main statements:

* `RecordKind.isPlain_eq_false` — only contexts and servers are written together with others.
-/

namespace SharedConfig

open Yaml

/-- A kind of record that is kept in a collection of the document. -/
inductive RecordKind where
  | context
  | server
  | pluginGroup
  | essential
  | corePluginGroup
  | discoverySource
  deriving DecidableEq, Repr, Inhabited

/-- Why there is no record for a tree, or no tree for a record. -/
inductive CodecError where
  /-- The value of the tree is not that of a record. -/
  | undecodable (cause : DecodeError)
  /-- A key in the record is a collection. -/
  | unencodable (kind : NodeKind)
  /-- The tree has no value, since a collection in it has an empty tag. -/
  | noValue
  deriving DecidableEq, Repr

def CodecError.message : CodecError → String
  | .undecodable cause => "decode failed: " ++ cause.message
  | .unencodable kind => (NodeError.nonScalarKey kind).message
  | .noValue => "empty tag"

/-- Read a tree as something that values are read as. -/
def Node.decode {ρ : Type} (read : Value → Decoding ρ) (n : Node) : Except CodecError ρ :=
  match n.toValue? with
  | none => .error .noValue
  | some v =>
    match read v with
    | .error e => .error (.undecodable e)
    | .ok r => .ok r

namespace RecordKind

def name : RecordKind → String
  | context => "context"
  | server => "server"
  | pluginGroup => "plugin group"
  | essential => "essential"
  | corePluginGroup => "core plugin group"
  | discoverySource => "discovery source"

/-- The names of the keys that lead to the collection of a kind. -/
def collectionNames : RecordKind → List String
  | context => ["contexts"]
  | server => ["servers"]
  | pluginGroup => ["clientOptions", "cli", "pluginGroups"]
  | essential => ["clientOptions", "cli", "essentials"]
  | corePluginGroup => ["clientOptions", "cli", "essentialPluginGroups"]
  | discoverySource => ["clientOptions", "cli", "discoverySources"]

def collection (k : RecordKind) : KeyPath := KeyPath.of k.collectionNames .sequence

/-- Whether the records of a kind are written by themselves. -/
def isPlain : RecordKind → Bool
  | context => false
  | server => false
  | _ => true

theorem isPlain_eq_false (k : RecordKind) : k.isPlain = false ↔ k = context ∨ k = server := by
  cases k <;> simp [isPlain]

abbrev Record : RecordKind → Type
  | context => Context
  | server => Server
  | pluginGroup => PluginGroup
  | essential => Essential
  | corePluginGroup => CorePluginGroup
  | discoverySource => PluginDiscovery

/-- The name of a record. -/
def recordName : (k : RecordKind) → k.Record → String
  | context, r => Context.name r
  | server, r => Server.name r
  | pluginGroup, r => PluginGroup.name r
  | essential, r => Essential.name r
  | corePluginGroup, r => CorePluginGroup.name r
  | discoverySource, r => PluginDiscovery.name r

def read {α : Type} {m : Type → Type} [Monad m] [MonadExceptOf DecodeError m] [Source α m] :
    (k : RecordKind) → α → m k.Record
  | context => Context.read
  | server => Server.read
  | pluginGroup => PluginGroup.read
  | essential => Essential.read
  | corePluginGroup => CorePluginGroup.read
  | discoverySource => PluginDiscovery.read

def encode : (k : RecordKind) → k.Record → Except CodecError Node
  | context, r =>
    match Context.encode r with
    | .error kind => .error (.unencodable kind)
    | .ok n => .ok n
  | server, r => .ok (Server.encode r)
  | pluginGroup, r => .ok (PluginGroup.encode r)
  | essential, r => .ok (Essential.encode r)
  | corePluginGroup, r => .ok (CorePluginGroup.encode r)
  | discoverySource, r => .ok (PluginDiscovery.encode r)

def decode (k : RecordKind) (n : Node) : Except CodecError k.Record := n.decode k.read

def ofText (k : RecordKind) (s : String) : Except DecodeError k.Record := readFromText k.read s

end RecordKind

end SharedConfig
