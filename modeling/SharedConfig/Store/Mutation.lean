import SharedConfig.Store.Change
import SharedConfig.Store.Options

/-!
# SharedConfig.Store.Mutation

The operations that change a document, as values.  Arguments are looked at before the document is.

Main statements:

* `Mutation.applyTo_of_check_error` — with a wrong argument nothing is done.
-/

namespace SharedConfig

/-- A kind of record that is written by itself. -/
abbrev PlainKind := { k : RecordKind // k.isPlain = true }

/-- An operation that changes a document. -/
inductive Mutation where
  | set (k : PlainKind) (r : k.val.Record)
  | delete (k : PlainKind) (name : String)
  | apply (changes : ChangeSet)
  | setContext (c : Context) (current : Bool)
  | removeContext (name : String)
  | setServer (s : Server) (current : Bool)
  | removeServer (name : String)
  | setCurrentContext (name : String)
  | removeCurrentContext (t : Target)
  | setCurrentServer (name : String)
  | removeCurrentServer (name : String)
  | setFeature (plugin key value : String)
  | deleteFeature (plugin key : String)
  | setEnv (key value : String)
  | deleteEnv (key : String)

/-- What an operation answers. -/
inductive Outcome where
  | done
  | changed (b : Bool)
  | report (r : Report)
  deriving DecidableEq, Repr

namespace Outcome

/-- Whether the document is another one now. -/
def isChange : Outcome → Bool
  | done => true
  | changed b => b
  | report r => r.changed

end Outcome

namespace Mutation

/-- Look at the arguments. -/
def check : Mutation → Except StoreError Unit
  | set k r => requireNonEmpty k.val.name (k.val.recordName r)
  | delete k name => requireNonEmpty k.val.name name
  | apply _ => .ok ()
  | setContext c _ => requireNonEmpty RecordKind.context.name c.name
  | removeContext name => requireNonEmpty RecordKind.context.name name
  | setServer s _ => requireNonEmpty RecordKind.server.name s.name
  | removeServer name => requireNonEmpty RecordKind.server.name name
  | setCurrentContext name => requireNonEmpty RecordKind.context.name name
  | removeCurrentContext _ => .ok ()
  | setCurrentServer name => requireNonEmpty RecordKind.server.name name
  | removeCurrentServer name => requireNonEmpty RecordKind.server.name name
  | setFeature plugin key _ => checkFeature plugin key
  | deleteFeature plugin key => checkFeature plugin key
  | setEnv key _ => checkEnv key
  | deleteEnv key => checkEnv key

def ofChanges (cs : ChangeSet) : Action Outcome := .report <$> cs.run

def run : Mutation → Action Outcome
  | set k r => .changed <$> Action.upsert k.val r
  | delete k name => do
    let _ ← Action.removeRecord k.val name true
    return .done
  | apply changes => ofChanges changes
  | setContext c current => ofChanges (.setContext c current)
  | removeContext name => ofChanges (.removeContext name)
  | setServer s current => ofChanges (.setServer s current)
  | removeServer name => ofChanges (.removeServer name)
  | setCurrentContext name => ofChanges [.setCurrentContext name]
  | removeCurrentContext t => ofChanges [.clearCurrentTarget t]
  | setCurrentServer name => ofChanges [.setCurrentServer name]
  | removeCurrentServer name => ofChanges [.clearCurrentServer name, .clearCurrentContext name]
  | setFeature plugin key value => .changed <$> Action.setFeature plugin key value
  | deleteFeature plugin key => .changed <$> Action.deleteFeature plugin key
  | setEnv key value => .changed <$> Action.setEnv key value
  | deleteEnv key => .changed <$> Action.deleteEnv key

/-- What a mutation makes of a document: an answer and the new document, or an error. -/
def applyTo (m : Mutation) (strategies : StrategyTable) (root : Node) :
    Except StoreError (Outcome × Node) :=
  match m.check with
  | .error e => .error e
  | .ok () =>
    match m.run (.new root strategies) with
    | (.error e, _) => .error e
    | (.ok answer, s) => .ok (answer, s.root)

theorem applyTo_of_check_error {m : Mutation} {e : StoreError} (h : m.check = .error e)
    (strategies : StrategyTable) (root : Node) : m.applyTo strategies root = .error e := by
  simp [applyTo, h]

end Mutation

end SharedConfig
