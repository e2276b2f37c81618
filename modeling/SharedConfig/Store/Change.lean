import SharedConfig.Store.Selection
import SharedConfig.Store.Session

/-!
# SharedConfig.Store.Change

Changes of contexts and servers, and the lists of changes that keep the two together.
-/

namespace SharedConfig

/-- A change of the contexts, the servers or the selections. -/
inductive Change where
  | upsertContext (c : Context)
  | upsertServer (s : Server)
  | removeContext (name : String) (required : Bool)
  | removeServer (name : String) (required : Bool)
  | setCurrentContext (name : String)
  | setCurrentServer (name : String)
  | clearCurrentContext (name : String)
  | clearCurrentTarget (t : Target)
  | clearCurrentServer (name : String)
  deriving Repr

/-- What a list of changes did. -/
structure Report where
  changed : Bool
  stepsApplied : Nat
  deriving DecidableEq, Repr, Inhabited

namespace Action

/-- Drop the records of a name; none is an error where one is required. -/
def removeRecord (k : RecordKind) (name : String) (required : Bool) : Action Bool := do
  let removed ← remove k name
  if required && !removed then fail (.notFound k.name name) else pure removed

/-- Select a context for its target, and the server of its name with a cluster. -/
def setCurrentContext (name : String) : Action Bool := do
  let c ← ask (RecordKind.context.find name)
  let changed ← setScalar (currentContextPath c.target) name
  if c.target.isCluster && RecordKind.server.contains name (← root) then
    let more ← setScalar currentServerPath name
    pure (changed || more)
  else pure changed

/-- Select a server, and the context of its name for its target. -/
def setCurrentServer (name : String) : Action Bool := do
  if RecordKind.server.contains name (← root) then
    let changed ← setScalar currentServerPath name
    if RecordKind.context.contains name (← root) then
      let c ← ask (RecordKind.context.find name)
      let more ← setScalar (currentContextPath c.target) name
      pure (changed || more)
    else pure changed
  else fail (.notFound RecordKind.server.name name)

def clearTargets : List Target → Action Bool
  | [] => pure false
  | t :: rest => do
    let removed ← removeKey (currentContextPath t)
    let more ← clearTargets rest
    pure (removed || more)

def clearCurrentContext (name : String) : Action Bool := do
  clearTargets (targetsSelecting name (← root))

/-- Drop the selection of a server, if it is the current one. -/
def clearCurrentServer (name : String) : Action Bool := do
  if (← root).getScalar currentServerPath = some name then removeKey currentServerPath
  else pure false

/-- Drop the selection for a target, and that of the server of its name with a cluster. -/
def clearCurrentTarget (t : Target) : Action Bool := do
  let selected := (← root).getScalar (currentContextPath t)
  let removed ← removeKey (currentContextPath t)
  match selected with
  | some name =>
    if t.isCluster then
      let more ← clearCurrentServer name
      pure (removed || more)
    else pure removed
  | none => pure removed

end Action

/-- Make a change.  The answer says whether the document is another one now. -/
def Change.run : Change → Action Bool
  | upsertContext c => Action.upsert .context c
  | upsertServer s => Action.upsert .server s
  | removeContext name required => Action.removeRecord .context name required
  | removeServer name required => Action.removeRecord .server name required
  | setCurrentContext name => Action.setCurrentContext name
  | setCurrentServer name => Action.setCurrentServer name
  | clearCurrentContext name => Action.clearCurrentContext name
  | clearCurrentTarget t => Action.clearCurrentTarget t
  | clearCurrentServer name => Action.clearCurrentServer name

/-- Changes that belong together. -/
abbrev ChangeSet := List Change

namespace ChangeSet

/-- Set a context, with its server if it is one of a cluster, and select it if it is to be the
current one. -/
def setContext (c : Context) (current : Bool) : ChangeSet :=
  [.upsertContext c] ++ (if c.target.isCluster then [.upsertServer (.ofContext c)] else []) ++
    (if current then [.setCurrentContext c.name] else [])

/-- Set a server with its context, and select it if it is to be the current one. -/
def setServer (s : Server) (current : Bool) : ChangeSet :=
  [.upsertServer s, .upsertContext (.ofServer s)] ++
    (if current then [.setCurrentServer s.name] else [])

/-- Drop a context with its server and all selections of either. -/
def removeContext (name : String) : ChangeSet :=
  [.clearCurrentContext name, .removeContext name true, .removeServer name false,
    .clearCurrentServer name]

/-- Drop a server with its context and all selections of either. -/
def removeServer (name : String) : ChangeSet :=
  [.clearCurrentServer name, .removeServer name true, .removeContext name false,
    .clearCurrentContext name]

/-- Make changes after those of a report, up to the first that fails. -/
def runAfter (done : Report) : ChangeSet → Action Report
  | [] => pure done
  | c :: rest => do
    let changed ← c.run
    runAfter (if changed then ⟨true, done.stepsApplied + 1⟩ else done) rest

def run (cs : ChangeSet) : Action Report := runAfter ⟨false, 0⟩ cs

end ChangeSet

end SharedConfig
