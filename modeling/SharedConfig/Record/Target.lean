import SharedConfig.Record.Source
import SharedConfig.Text.Blank

/-!
# SharedConfig.Record.Target

The control planes that a context can be for, and the types of servers.

Main statements:

* `Target.ofWord?_name` — every target is known by its name.
-/

namespace SharedConfig

/-- The control plane that a context is for. -/
inductive Target where
  | kubernetes
  | missionControl
  | tanzu
  deriving DecidableEq, Repr, Inhabited

/-- Why a text stands for no target. -/
inductive TargetError where
  /-- The text in lower case is not one of the words. -/
  | unknown (word : String)
  deriving DecidableEq, Repr

def TargetError.message : TargetError → String
  | .unknown word => "unknown target '" ++ word ++ "'"

namespace Target

def all : List Target := [kubernetes, missionControl, tanzu]

def name : Target → String
  | kubernetes => "kubernetes"
  | missionControl => "mission-control"
  | tanzu => "tanzu"

def isCluster : Target → Bool
  | kubernetes => true
  | _ => false

/-- The words that stand for targets. -/
def words : List String := ["k8s", "kubernetes", "mission-control", "tmc", "tanzu"]

def ofWord? (s : String) : Option Target :=
  if s = "kubernetes" ∨ s = "k8s" then some kubernetes
  else if s = "mission-control" ∨ s = "tmc" then some missionControl
  else if s = "tanzu" then some tanzu
  else none

/-- The target that a text stands for, in any case. -/
def ofText (s : String) : Except TargetError Target :=
  match ofWord? (lowercase s) with
  | some t => .ok t
  | none => .error (.unknown (lowercase s))

@[simp] theorem ofWord?_name (t : Target) : ofWord? t.name = some t := by
  cases t <;> decide

def read {α : Type} {m : Type → Type} [Monad m] [MonadExceptOf DecodeError m] [Source α m]
    (x : α) : m Target := do
  let name ← Source.variant words x
  match ofWord? name with
  | some t => pure t
  | none => throw (.unknownVariant name words)

end Target

/-- The type of a server. -/
inductive ServerType where
  | managementCluster
  | global
  deriving DecidableEq, Repr, Inhabited

namespace ServerType

def name : ServerType → String
  | managementCluster => "managementcluster"
  | global => "global"

/-- The words that stand for server types. -/
def words : List String := ["managementcluster", "global"]

def ofWord? (s : String) : Option ServerType :=
  if s = "managementcluster" then some managementCluster
  else if s = "global" then some global
  else none

def read {α : Type} {m : Type → Type} [Monad m] [MonadExceptOf DecodeError m] [Source α m]
    (x : α) : m ServerType := do
  let name ← Source.variant words x
  match ofWord? name with
  | some t => pure t
  | none => throw (.unknownVariant name words)

end ServerType

end SharedConfig
