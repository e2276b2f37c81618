import SharedConfig.Store.Collection

/-!
# SharedConfig.Store.Session

A document while it is edited, and the edits.  An edit that fails may have done a part of its work;
a session is dirty when an edit has changed the document.

Main statements:

* `Action.bind_apply` — actions run one after the other, up to the first that fails.
-/

namespace SharedConfig

/-- A document while it is edited. -/
structure Session where
  root : Node
  strategies : StrategyTable
  dirty : Bool

/-- An edit: it may fail, and leaves a session either way. -/
def Action (β : Type) := Session → Except StoreError β × Session

namespace Action

variable {β γ : Type}

/-- Go on with the answer of an action, unless it fails. -/
def andThen (a : Action β) (f : β → Action γ) : Action γ := fun s =>
  match a s with
  | (.ok x, s) => f x s
  | (.error e, s) => (.error e, s)

instance : Monad Action where
  pure x := fun s => (.ok x, s)
  bind := andThen

theorem pure_apply (x : β) (s : Session) : (pure x : Action β) s = (.ok x, s) := rfl

theorem bind_apply (a : Action β) (f : β → Action γ) (s : Session) :
    (a >>= f) s = match a s with
      | (.ok x, s) => f x s
      | (.error e, s) => (.error e, s) := rfl

def fail (e : StoreError) : Action β := fun s => (.error e, s)

def root : Action Node := fun s => (.ok s.root, s)

/-- Something that is answered from the document. -/
def ask (query : Node → Except StoreError β) : Action β := fun s => (query s.root, s)

end Action

namespace Session

def new (root : Node) (strategies : StrategyTable) : Session := ⟨root, strategies, false⟩

def edited (s : Session) (root : Node) (changed : Bool) : Session :=
  ⟨root, s.strategies, s.dirty || changed⟩

end Session

def upsertInto (table : StrategyTable) (path : String) (candidate n : Node) :
    Node × Except StoreError Bool :=
  match n.asSequence with
  | none => (n, .error (.malformed (.notSequence path)))
  | some items =>
    match upsertEntity table path candidate items with
    | .error e => (n, .error (.invalidArgument (.unnamed e)))
    | .ok (items, changed) => (n.setCore (.sequence items), .ok changed)

def removeFrom (name : String) (n : Node) : Node × Bool :=
  match n.asSequence with
  | none => (n, false)
  | some items =>
    let (items, removed) := removeEntity name items
    (n.setCore (.sequence items), removed)

namespace Action

/-- Put a record into its collection, which is made where it is absent.  The answer says whether
that changed anything. -/
def upsert (k : RecordKind) (r : k.Record) : Action Bool := fun s =>
  match k.encode r with
  | .error e => (.error (.codec e), s)
  | .ok candidate =>
    let path := k.collection.dotted
    match s.root.editAt true (upsertInto s.strategies path candidate) k.collection with
    | (root, none) => (.error (.malformed (.notSequence path)), s.edited root false)
    | (root, some (.error e)) => (.error e, s.edited root false)
    | (root, some (.ok changed)) => (.ok changed, s.edited root changed)

/-- Drop the records of a name.  The answer says whether there were any. -/
def remove (k : RecordKind) (name : String) : Action Bool := fun s =>
  let (root, answer) := s.root.editAt false (removeFrom name) k.collection
  let removed := answer.getD false
  (.ok removed, s.edited root removed)

/-- Write a text at a path.  The answer says whether that changed anything. -/
def setScalar (path : KeyPath) (value : String) : Action Bool := fun s =>
  let (root, written) := s.root.setScalar path value
  let s := s.edited root written
  if written then (.ok true, s)
  else if root.getScalar path = some value then (.ok false, s)
  else (.error (.malformed (.blocked path.dotted)), s)

def removeKey (path : KeyPath) : Action Bool := fun s =>
  let (root, removed) := s.root.removeKey path
  (.ok removed, s.edited root removed)

def prune (path : KeyPath) : Action Bool := fun s =>
  let (root, pruned) := s.root.pruneEmpty path
  (.ok pruned, s.edited root pruned)

end Action

end SharedConfig
