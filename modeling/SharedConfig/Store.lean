import SharedConfig.Store.Mutation
import SharedConfig.Store.Settings
import SharedConfig.Store.Volume

/-!
# SharedConfig.Store

The store on its files.  A mutation holds the lock from reading to writing, and writes the document
only if it succeeds and has changed it; the new document replaces the old one as a whole.
-/

namespace SharedConfig

/-- A store that was opened: its settings and its strategies. -/
structure Store where
  settings : Settings
  strategies : StrategyTable

/-- The document at a path; where there is no file it is empty. -/
def loadDocument (path : String) (v : Volume) : Except StoreError Node :=
  match v.textAt (.ofText path) with
  | .error .missing => .ok (.mapping [])
  | .error e => .error (.io path e)
  | .ok s =>
    match Node.parseDocument s with
    | .error e => .error (.malformed (.unreadable path e))
    | .ok root => .ok root

/-- Write a document to a path, with the directories that are missing. -/
def commitDocument (path : String) (root : Node) (v : Volume) : Except StoreError Unit × Volume :=
  match root.print with
  | .impossible => (.error (.codec .noValue), v)
  | .refused e => (.error (.malformed (.unprintable e)), v)
  | .text s =>
    let name := PathName.ofText path
    match v.makeParent name with
    | (.error e, v) =>
      let parent := PathName.parentText path
      (.error (.io (if parent = "" then "." else parent) e), v)
    | (.ok (), v) =>
      match v.replace name s with
      | .error e => (.error (.io path e), v)
      | .ok v => (.ok (), v)

/-- The strategies at a path; where there is no file all is merged. -/
def loadStrategies (path : String) (v : Volume) : Except StoreError StrategyTable :=
  match v.textAt (.ofText path) with
  | .error .missing => .ok .empty
  | .error e => .error (.io path e)
  | .ok s =>
    match StrategyTable.ofText s with
    | .error e => .error (.malformed (.strategies e))
    | .ok t => .ok t

namespace Store

/-- Open a store with the strategies of its side document. -/
def «open» (settings : Settings) (v : Volume) : Except StoreError Store :=
  match loadStrategies settings.metadataPath v with
  | .error e => .error e
  | .ok t => .ok ⟨settings, t⟩

def read (s : Store) (v : Volume) : Except StoreError Node :=
  loadDocument s.settings.documentPath v

/-- What the document answers; arguments are looked at before. -/
def query {β : Type} (s : Store) (check : Except StoreError Unit)
    (ask : Node → Except StoreError β) (v : Volume) : Except StoreError β :=
  match check with
  | .error e => .error e
  | .ok () =>
    match s.read v with
    | .error e => .error e
    | .ok root => ask root

/-- Edit the document, and write it if the edit succeeds and has changed it. -/
def update {β : Type} (s : Store) (edit : Action β) (v : Volume) : Except StoreError β × Volume :=
  match s.read v with
  | .error e => (.error e, v)
  | .ok root =>
    match edit (.new root s.strategies) with
    | (.error e, _) => (.error e, v)
    | (.ok answer, session) =>
      if session.dirty then
        match commitDocument s.settings.documentPath session.root v with
        | (.error e, v) => (.error e, v)
        | (.ok (), v) => (.ok answer, v)
      else (.ok answer, v)

def withLock {β : Type} (s : Store) (edit : Action β) (v : Volume) :
    Except StoreError β × Volume :=
  match v.lock s.settings.lockPath with
  | (.error e, v) => (.error e, v)
  | (.ok id, v) =>
    let (answer, v) := s.update edit v
    (answer, v.unlock id)

def mutate (s : Store) (m : Mutation) (v : Volume) : Except StoreError Outcome × Volume :=
  match m.check with
  | .error e => (.error e, v)
  | .ok () => s.withLock m.run v

end Store

end SharedConfig
