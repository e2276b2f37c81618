import SharedConfig.Record.Source
import SharedConfig.Record.Fields
import SharedConfig.Store.Selection

/-!
# SharedConfig.Store.Settings

Where the files of a store are, and how long it waits for the lock.
-/

namespace SharedConfig

/-- Where the files of a store are, and how long it waits for the lock, in milliseconds. -/
structure Settings where
  documentPath : String
  lockPath : String
  metadataPath : String
  lockTimeout : Nat
  lockPollInterval : Nat
  deriving DecidableEq, Repr

namespace Settings

/-- The path of a file in a directory; an absolute name is a path of its own. -/
def pathIn (directory name : String) : String :=
  if directory = "" ∨ name.toList.head? = some '/' then name
  else if directory.toList.getLast? = some '/' then directory ++ name
  else directory ++ "/" ++ name

/-- The usual files in a directory, and the usual times. -/
def inDirectory (directory : String) : Settings where
  documentPath := pathIn directory "config.yaml"
  lockPath := pathIn directory ".config.yaml.lock"
  metadataPath := pathIn directory "config-metadata.yaml"
  lockTimeout := 10000
  lockPollInterval := 50

/-- The usual files, by their names alone. -/
def default : Settings := inDirectory ""

variable {α : Type} {m : Type → Type} [Monad m] [MonadExceptOf DecodeError m] [Source α m]

def readPath (x : α) : m String := Source.text "path string" x

def read : α → m Settings :=
  readRecord "StoreConfig" default
    ["documentPath", "lockPath", "metadataPath", "lockTimeoutMs", "lockPollIntervalMs"]
    fun r name x =>
      match name with
      | "documentPath" => some do return { r with documentPath := ← readPath x }
      | "lockPath" => some do return { r with lockPath := ← readPath x }
      | "metadataPath" => some do return { r with metadataPath := ← readPath x }
      | "lockTimeoutMs" => some do return { r with lockTimeout := ← Source.word x }
      | "lockPollIntervalMs" => some do return { r with lockPollInterval := ← Source.word x }
      | _ => none

def countNode (n : Nat) : Node := .scalar ⟨toString n, .int, none⟩

def encode (r : Settings) : Node :=
  .mapping (field "documentPath" (.string r.documentPath) ++
    field "lockPath" (.string r.lockPath) ++ field "metadataPath" (.string r.metadataPath) ++
    field "lockTimeoutMs" (countNode r.lockTimeout) ++
    field "lockPollIntervalMs" (countNode r.lockPollInterval))

end Settings

end SharedConfig
