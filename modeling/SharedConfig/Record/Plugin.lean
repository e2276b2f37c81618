import SharedConfig.Record.Source
import SharedConfig.Record.Fields

/-!
# SharedConfig.Record.Plugin

Plugins: the sources where they are discovered, and the groups in which they come.
-/

namespace SharedConfig

variable {α : Type} {m : Type → Type} [Monad m] [MonadExceptOf DecodeError m] [Source α m]

/-- A source of plugins: the image of a registry, or a local path. -/
structure PluginDiscovery where
  name : String
  oci : Option String
  «local» : Option String
  deriving DecidableEq, Repr, Inhabited

namespace PluginDiscovery

def image (name image : String) : PluginDiscovery := ⟨name, some image, none⟩

def directory (name path : String) : PluginDiscovery := ⟨name, none, some path⟩

/-- Read a record of one required text. -/
def readSingle (record fieldName : String) : α → m String :=
  readRecord record "" [fieldName] fun _ name x => if name = fieldName then some (readText x) else none

def read : α → m PluginDiscovery :=
  readRecord "PluginDiscovery" ⟨"", none, none⟩ ["name"] fun r name x =>
    match name with
    | "name" => some do return { r with name := ← readText x }
    | "oci" => some do return { r with oci := ← readOption (readSingle "OciDiscovery" "image") x }
    | "local" => some do return { r with «local» := ← readOption (readSingle "LocalDiscovery" "path") x }
    | _ => none

def encode (r : PluginDiscovery) : Node :=
  .mapping (field "name" (.string r.name) ++
    optionField "oci" (fun s => .mapping (field "image" (.string s))) r.oci ++
    optionField "local" (fun s => .mapping (field "path" (.string s))) r.local)

end PluginDiscovery

/-- A group of plugins. -/
structure PluginGroup where
  name : String
  version : Option String
  description : Option String
  plugins : List String
  deriving DecidableEq, Repr, Inhabited

namespace PluginGroup

def read : α → m PluginGroup :=
  readRecord "PluginGroup" ⟨"", none, none, []⟩ ["name"] fun r name x =>
    match name with
    | "name" => some do return { r with name := ← readText x }
    | "version" => some do return { r with version := ← readOption readText x }
    | "description" => some do return { r with description := ← readOption readText x }
    | "plugins" => some do return { r with plugins := ← readList readText x }
    | _ => none

def encode (r : PluginGroup) : Node :=
  .mapping (field "name" (.string r.name) ++ optionField "version" .string r.version ++
    optionField "description" .string r.description ++ listField "plugins" .string r.plugins)

end PluginGroup

/-- An essential plugin. -/
structure Essential where
  name : String
  version : Option String
  image : Option String
  deriving DecidableEq, Repr, Inhabited

namespace Essential

def read : α → m Essential :=
  readRecord "Essential" ⟨"", none, none⟩ ["name"] fun r name x =>
    match name with
    | "name" => some do return { r with name := ← readText x }
    | "version" => some do return { r with version := ← readOption readText x }
    | "image" => some do return { r with image := ← readOption readText x }
    | _ => none

def encode (r : Essential) : Node :=
  .mapping (field "name" (.string r.name) ++ optionField "version" .string r.version ++
    optionField "image" .string r.image)

end Essential

/-- A group of essential plugins. -/
structure CorePluginGroup where
  name : String
  version : Option String
  image : Option String
  deriving DecidableEq, Repr, Inhabited

namespace CorePluginGroup

def read : α → m CorePluginGroup :=
  readRecord "CorePluginGroup" ⟨"", none, none⟩ ["name"] fun r name x =>
    match name with
    | "name" => some do return { r with name := ← readText x }
    | "version" => some do return { r with version := ← readOption readText x }
    | "image" => some do return { r with image := ← readOption readText x }
    | _ => none

def encode (r : CorePluginGroup) : Node :=
  .mapping (field "name" (.string r.name) ++ optionField "version" .string r.version ++
    optionField "image" .string r.image)

end CorePluginGroup

end SharedConfig
