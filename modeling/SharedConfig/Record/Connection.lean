import SharedConfig.Record.Source
import SharedConfig.Record.Fields

/-!
# SharedConfig.Record.Connection

The parts that contexts and servers share: how a cluster or a global endpoint is reached.
-/

namespace SharedConfig

variable {α : Type} {m : Type → Type} [Monad m] [MonadExceptOf DecodeError m] [Source α m]

/-- How the cluster of a context is reached. -/
structure ClusterServer where
  endpoint : String
  path : String
  context : String
  isManagementCluster : Bool
  deriving DecidableEq, Repr, Inhabited

namespace ClusterServer

def read : α → m ClusterServer :=
  readRecord "ClusterServer" ⟨"", "", "", false⟩ [] fun r name x =>
    match name with
    | "endpoint" => some do return { r with endpoint := ← readText x }
    | "path" => some do return { r with path := ← readText x }
    | "context" => some do return { r with context := ← readText x }
    | "isManagementCluster" => some do return { r with isManagementCluster := ← Source.bool x }
    | _ => none

def encode (r : ClusterServer) : Node :=
  .mapping (textField "endpoint" r.endpoint ++ textField "path" r.path ++
    textField "context" r.context ++ field "isManagementCluster" (boolNode r.isManagementCluster))

end ClusterServer

/-- How the cluster of a server is reached. -/
structure ManagementClusterServer where
  endpoint : String
  path : String
  context : String
  deriving DecidableEq, Repr, Inhabited

namespace ManagementClusterServer

def read : α → m ManagementClusterServer :=
  readRecord "ManagementClusterServer" ⟨"", "", ""⟩ [] fun r name x =>
    match name with
    | "endpoint" => some do return { r with endpoint := ← readText x }
    | "path" => some do return { r with path := ← readText x }
    | "context" => some do return { r with context := ← readText x }
    | _ => none

def encode (r : ManagementClusterServer) : Node :=
  .mapping (textField "endpoint" r.endpoint ++ textField "path" r.path ++
    textField "context" r.context)

end ManagementClusterServer

def ClusterServer.toManagement (c : ClusterServer) : ManagementClusterServer :=
  ⟨c.endpoint, c.path, c.context⟩

def ClusterServer.ofManagement (s : ManagementClusterServer) : ClusterServer :=
  ⟨s.endpoint, s.path, s.context, true⟩

/-- What a global endpoint is told about its user. -/
structure GlobalServerAuth where
  issuer : Option String
  userName : Option String
  accessToken : Option String
  idToken : Option String
  refreshToken : Option String
  expiration : Option String
  authType : Option String
  deriving DecidableEq, Repr, Inhabited

namespace GlobalServerAuth

def read : α → m GlobalServerAuth :=
  readRecord "GlobalServerAuth" ⟨none, none, none, none, none, none, none⟩ [] fun r name x =>
    match name with
    | "issuer" => some do return { r with issuer := ← readOption readText x }
    | "userName" => some do return { r with userName := ← readOption readText x }
    | "accessToken" => some do return { r with accessToken := ← readOption readText x }
    | "idToken" => some do return { r with idToken := ← readOption readText x }
    | "refreshToken" => some do return { r with refreshToken := ← readOption readText x }
    | "expiration" => some do return { r with expiration := ← readOption readText x }
    | "type" => some do return { r with authType := ← readOption readText x }
    | _ => none

def encode (r : GlobalServerAuth) : Node :=
  .mapping (optionField "issuer" .string r.issuer ++ optionField "userName" .string r.userName ++
    optionField "accessToken" .string r.accessToken ++ optionField "idToken" .string r.idToken ++
    optionField "refreshToken" .string r.refreshToken ++
    optionField "expiration" .string r.expiration ++ optionField "type" .string r.authType)

end GlobalServerAuth

/-- How a global endpoint is reached. -/
structure GlobalServer where
  endpoint : String
  auth : Option GlobalServerAuth
  deriving DecidableEq, Repr, Inhabited

namespace GlobalServer

def read : α → m GlobalServer :=
  readRecord "GlobalServer" ⟨"", none⟩ [] fun r name x =>
    match name with
    | "endpoint" => some do return { r with endpoint := ← readText x }
    | "auth" => some do return { r with auth := ← readOption GlobalServerAuth.read x }
    | _ => none

def encode (r : GlobalServer) : Node :=
  .mapping (textField "endpoint" r.endpoint ++ optionField "auth" GlobalServerAuth.encode r.auth)

end GlobalServer

end SharedConfig
