import SharedConfig.Record.Connection
import SharedConfig.Record.Plugin
import SharedConfig.Record.Target
import SharedConfig.Node.Value

/-!
# SharedConfig.Record.Context

Contexts and servers: two generations of the same thing.  A context of a cluster has a server of the
same name beside it, a server always has a context.

Main statements:

* `Server.ofContext_ofServer` — the server of the context of a server is that server.
-/

namespace SharedConfig

open Yaml

variable {α : Type} {m : Type → Type} [Monad m] [MonadExceptOf DecodeError m] [Source α m]

/-- What a connection is made to, with all that is known about it. -/
structure Context where
  name : String
  target : Target
  globalOpts : Option GlobalServer
  clusterOpts : Option ClusterServer
  discoverySources : List PluginDiscovery
  additionalMetadata : Dictionary Value
  deriving Repr, Inhabited

/-- What a connection was made to before there were contexts. -/
structure Server where
  name : String
  type : ServerType
  globalOpts : Option GlobalServer
  managementClusterOpts : Option ManagementClusterServer
  discoverySources : List PluginDiscovery
  deriving DecidableEq, Repr, Inhabited

namespace Context

def new (name : String) (target : Target) : Context := ⟨name, target, none, none, [], []⟩

def addSource (c : Context) (source : PluginDiscovery) : Context :=
  { c with discoverySources := c.discoverySources ++ [source] }

/-- Set an entry of the metadata. -/
def setMetadata (c : Context) (key : String) (value : Value) : Context :=
  { c with additionalMetadata := Dictionary.insert key value c.additionalMetadata }

def read : α → m Context :=
  readRecord "Context" (.new "" .kubernetes) ["name"] fun r name x =>
    match name with
    | "name" => some do return { r with name := ← readText x }
    | "target" => some do return { r with target := ← Target.read x }
    | "globalOpts" => some do return { r with globalOpts := ← readOption GlobalServer.read x }
    | "clusterOpts" => some do return { r with clusterOpts := ← readOption ClusterServer.read x }
    | "discoverySources" =>
      some do return { r with discoverySources := ← readList PluginDiscovery.read x }
    | "additionalMetadata" =>
      some do return { r with additionalMetadata := ← readDictionary Source.value x }
    | _ => none

/-- The fields of the metadata; there is none for a key that is a collection. -/
def metadataFields : Dictionary Value → Except NodeKind Mapping
  | [] => .ok []
  | es =>
    match Node.ofValue (.mapping (es.map fun (k, v) => (.string k, v))) with
    | .error kind => .error kind
    | .ok n => .ok (field "additionalMetadata" n)

def encode (r : Context) : Except NodeKind Node :=
  match metadataFields r.additionalMetadata with
  | .error kind => .error kind
  | .ok metadata =>
    .ok (.mapping (field "name" (.string r.name) ++ field "target" (.string r.target.name) ++
      optionField "globalOpts" GlobalServer.encode r.globalOpts ++
      optionField "clusterOpts" ClusterServer.encode r.clusterOpts ++
      listField "discoverySources" PluginDiscovery.encode r.discoverySources ++ metadata))

end Context

namespace Server

def new (name : String) (type : ServerType) : Server := ⟨name, type, none, none, []⟩

def read : α → m Server :=
  readRecord "Server" (.new "" .managementCluster) ["name"] fun r name x =>
    match name with
    | "name" => some do return { r with name := ← readText x }
    | "type" => some do return { r with type := ← ServerType.read x }
    | "globalOpts" => some do return { r with globalOpts := ← readOption GlobalServer.read x }
    | "managementClusterOpts" =>
      some do return { r with managementClusterOpts := ← readOption ManagementClusterServer.read x }
    | "discoverySources" =>
      some do return { r with discoverySources := ← readList PluginDiscovery.read x }
    | _ => none

def encode (r : Server) : Node :=
  .mapping (field "name" (.string r.name) ++ field "type" (.string r.type.name) ++
    optionField "globalOpts" GlobalServer.encode r.globalOpts ++
    optionField "managementClusterOpts" ManagementClusterServer.encode r.managementClusterOpts ++
    listField "discoverySources" PluginDiscovery.encode r.discoverySources)

/-- The server that stands for a context. -/
def ofContext (c : Context) : Server where
  name := c.name
  type := if c.target.isCluster then .managementCluster else .global
  globalOpts := c.globalOpts
  managementClusterOpts := c.clusterOpts.map ClusterServer.toManagement
  discoverySources := c.discoverySources

end Server

/-- The context that stands for a server. -/
def Context.ofServer (s : Server) : Context where
  name := s.name
  target := match s.type with
    | .managementCluster => .kubernetes
    | .global => .missionControl
  globalOpts := s.globalOpts
  clusterOpts := s.managementClusterOpts.map ClusterServer.ofManagement
  discoverySources := s.discoverySources
  additionalMetadata := []

theorem Server.ofContext_ofServer (s : Server) : Server.ofContext (Context.ofServer s) = s := by
  obtain ⟨name, type, globalOpts, cluster, sources⟩ := s
  cases type <;> cases cluster <;> rfl

end SharedConfig
