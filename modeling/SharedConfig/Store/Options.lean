import SharedConfig.Store.Session

/-!
# SharedConfig.Store.Options

Features of plugins, and variables of the environment.
-/

namespace SharedConfig

def featurePath (plugin key : String) : KeyPath :=
  KeyPath.of ["clientOptions", "features", plugin, key] .scalar

def envPath (key : String) : KeyPath := KeyPath.of ["clientOptions", "env", key] .scalar

/-- A feature has a plugin and a key. -/
def checkFeature (plugin key : String) : Except StoreError Unit :=
  match requireNonEmpty "plugin name" plugin with
  | .error e => .error e
  | .ok () => requireNonEmpty "feature key" key

def checkEnv (key : String) : Except StoreError Unit := requireNonEmpty "env key" key

def isFeatureEnabled (plugin key : String) (root : Node) : Bool :=
  match root.getScalar (featurePath plugin key) with
  | some v => decide (lowercase v = "true")
  | none => false

def envValue (key : String) (root : Node) : Except StoreError String :=
  match root.getScalar (envPath key) with
  | some v => .ok v
  | none => .error (.notFound "env variable" key)

/-- All variables that are texts. -/
def envVariables (root : Node) : Dictionary String :=
  match root.locate (KeyPath.of ["clientOptions", "env"] .mapping) with
  | none => []
  | some n =>
    match n.asMapping with
    | none => []
    | some m => Dictionary.ofList (m.filterMap fun (k, v) => v.asText.map fun s => (k.text, s))

namespace Action

def setFeature (plugin key value : String) : Action Bool := setScalar (featurePath plugin key) value

/-- Drop a feature, and what is left empty by that. -/
def deleteFeature (plugin key : String) : Action Bool := do
  let path := featurePath plugin key
  let removed ← removeKey path
  if removed then
    let _ ← prune (path.parent?.getD [])
    pure true
  else pure false

def setEnv (key value : String) : Action Bool := setScalar (envPath key) value

def deleteEnv (key : String) : Action Bool := removeKey (envPath key)

end Action

end SharedConfig
