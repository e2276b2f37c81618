import SharedConfig.Proofs.Removal
import SharedConfig.Store.Mutation

/-!
# SharedConfig.Proofs.Run

Runs of operations: each takes the document to another one, or fails and leaves it as it is.

* `Step`: what operations do to a document.  A property of documents that every step keeps holds
  along every run (`Mutation.nextAll_induction`).
* `Mutation.nextAll_keeps`, `Mutation.nextAll_along`: the same for the operations of one run, and
  for those of them that succeed.
* `Mutation.next_steps`: an operation that succeeds takes such steps, and no others.
-/

namespace SharedConfig

open Node

namespace Mutation

/-- A document after a mutation; one that fails leaves it as it is. -/
def next (table : StrategyTable) (m : Mutation) (root : Node) : Node :=
  match m.applyTo table root with
  | .ok (_, after) => after
  | .error _ => root

/-- A document after mutations, each under strategies of its own. -/
def nextAll (ms : List (StrategyTable × Mutation)) (root : Node) : Node :=
  ms.foldl (fun n m => m.2.next m.1 n) root

theorem nextAll_append (before after : List (StrategyTable × Mutation)) (root : Node) :
    nextAll (before ++ after) root = nextAll after (nextAll before root) :=
  List.foldl_append

/-- An operation of the store, and not a list of changes of someone's choice. -/
def IsOperation : Mutation → Prop
  | apply _ => False
  | _ => True

/-- The operations on client options, and on the records that are written by themselves. -/
def isOption : Mutation → Bool
  | set .. | delete .. | setFeature .. | deleteFeature .. | setEnv .. | deleteEnv .. => true
  | _ => false

/-- The context that an operation writes, by itself or for a server. -/
def writtenContext : Mutation → Option Context
  | setContext c _ => some c
  | setServer s _ => some (.ofServer s)
  | _ => none

/-- The server that an operation writes, by itself or for a context. -/
def writtenServer : Mutation → Option Server
  | setContext c _ => if c.target.isCluster then some (.ofContext c) else none
  | setServer s _ => some s
  | _ => none

/-- What holds of every operation of a run that succeeds, and of the document that it is made on. -/
def Along (Q : Mutation → Node → Prop) : List (StrategyTable × Mutation) → Node → Prop
  | [], _ => True
  | m :: ms, root =>
    ((m.2.applyTo m.1 root).isOk = true → Q m.2 root) ∧ Along Q ms (m.2.next m.1 root)

end Mutation

/-- A selection can be made of the name of a record that is there; the context that is selected for
a target is found, and is for that target. -/
def Selection.Admits (name : String) (root : Node) : Selection → Prop
  | .context t => ∃ c, RecordKind.context.find name root = .ok c ∧ c.target = t
  | .server => name ∈ RecordKind.server.names root

theorem Selection.Admits.mem_names {name : String} {root : Node} {sel : Selection}
    (h : sel.Admits name root) : name ∈ sel.kind.names root := by
  cases sel with
  | server => exact h
  | context t =>
    obtain ⟨c, hfind, -⟩ := h
    exact RecordKind.mem_names_of_find hfind

/-- What a mutation does to a document under some strategies, in one step of several. -/
inductive Step (table : StrategyTable) : Mutation → Node → Node → Prop where
  /-- Options, and the records that are written by themselves, are all under one key. -/
  | options {m : Mutation} {a b : Node} : m.isOption = true → OnlyUnder "clientOptions" a b →
      Step table m a b
  | context {c : Context} {current : Bool} {a b : Node} : c.target.isCluster = false →
      Upserted .context c table a b → Step table (.setContext c current) a b
  /-- A context of a cluster comes with its server. -/
  | cluster {c : Context} {current : Bool} {a b d : Node} : c.target.isCluster = true →
      Upserted .context c table a b → Upserted .server (.ofContext c) table b d →
      Step table (.setContext c current) a d
  | server {s : Server} {current : Bool} {a b d : Node} : Upserted .server s table a b →
      Upserted .context (.ofServer s) table b d → Step table (.setServer s current) a d
  | removeContext {name : String} {a : Node} : RecordKind.context.contains name a = true →
      Step table (.removeContext name) a (a.dropContext name)
  | removeServer {name : String} {a : Node} : RecordKind.server.contains name a = true →
      Step table (.removeServer name) a (a.dropServer name)
  | select {m : Mutation} {sel : Selection} {name : String} {a b : Node} : sel.Admits name a →
      OnlySelection sel a b → sel.read b = some name → Step table m a b
  | unselect {m : Mutation} {sel : Selection} {a : Node} : Step table m a (a.dropSelection sel)

inductive Steps (table : StrategyTable) (m : Mutation) : Node → Node → Prop where
  | refl {a : Node} : Steps table m a a
  | snoc {a b c : Node} : Steps table m a b → Step table m b c → Steps table m a c

theorem Steps.single {table : StrategyTable} {m : Mutation} {a b : Node} (h : Step table m a b) :
    Steps table m a b := .snoc .refl h

theorem Steps.keeps {P : Node → Prop} {table : StrategyTable} {m : Mutation} {a b : Node}
    (h : Steps table m a b) (hstep : ∀ {a b}, Step table m a b → P a → P b) (ha : P a) : P b := by
  induction h with
  | refl => exact ha
  | snoc _ hs ih => exact hstep hs ih

/-! ## Client options -/

section Options

open SharedConfig.Action

variable {P : Node → Prop}

theorem setScalar_keeps {path : KeyPath} {value : String}
    (h : ∀ n, P n → P (n.setScalar path value).1) : Keeps P (Action.setScalar path value) := by
  intro s x s' hrun hs
  rw [root_of_setScalar hrun]
  exact h s.root hs

theorem removeKey_keeps {path : KeyPath} (h : ∀ n, P n → P (n.removeKey path).1) :
    Keeps P (Action.removeKey path) := by
  intro s x s' hrun hs
  cases hrun
  exact h s.root hs

theorem prune_keeps {path : KeyPath} (h : ∀ n, P n → P (n.pruneEmpty path).1) :
    Keeps P (Action.prune path) := by
  intro s x s' hrun hs
  cases hrun
  exact h s.root hs

theorem removeRecord_keeps {k : RecordKind} {name : String}
    (h : ∀ n, P n → P (n.removeNamed k name)) (required : Bool) :
    Keeps P (Action.removeRecord k name required) := by
  refine Keeps.bind (fun s x s' hrun hs => ?_) fun removed => ?_
  · obtain ⟨t, ht, hroot⟩ := remove_apply k name s
    cases ht.symm.trans hrun
    rw [hroot]
    exact h s.root hs
  · split
    · exact Keeps.fail _
    · exact Keeps.pure _

variable {before : Node} {key : String}

theorem setScalar_keeps_onlyUnder {s : PathStep} (hs : s.name = key) (rest : KeyPath)
    (value : String) : Keeps (OnlyUnder key before) (Action.setScalar (s :: rest) value) :=
  setScalar_keeps fun n hn => hn.trans (hs ▸ Node.setScalar_onlyUnder s rest value n)

theorem removeKey_keeps_onlyUnder {s : PathStep} (hs : s.name = key) (rest : KeyPath) :
    Keeps (OnlyUnder key before) (Action.removeKey (s :: rest)) :=
  removeKey_keeps fun n hn => hn.trans (hs ▸ Node.removeKey_onlyUnder s rest n)

theorem prune_keeps_onlyUnder {s : PathStep} (hs : s.name = key) (rest : KeyPath) :
    Keeps (OnlyUnder key before) (Action.prune (s :: rest)) :=
  prune_keeps fun n hn => hn.trans (hs ▸ Node.pruneEmpty_onlyUnder s rest n)

theorem upsert_keeps_onlyUnder {k : RecordKind} (hk : k.topKey = key) (r : k.Record) :
    Keeps (OnlyUnder key before) (Action.upsert k r) :=
  fun _ _ _ h hbefore => hbefore.trans (hk ▸ (Action.upsert_eq_ok h).frame)

theorem removeRecord_keeps_onlyUnder {k : RecordKind} (hk : k.topKey = key) (name : String)
    (required : Bool) : Keeps (OnlyUnder key before) (Action.removeRecord k name required) :=
  removeRecord_keeps (fun n hn => hn.trans (hk ▸ removeNamed_onlyUnder k name n)) required

theorem topKey_of_isPlain {k : RecordKind} (h : k.isPlain = true) : k.topKey = "clientOptions" := by
  cases k <;> first | rfl | cases h

theorem run_onlyUnder_options {m : Mutation} (hm : m.isOption = true) :
    Keeps (OnlyUnder "clientOptions" before) m.run := by
  cases m with
  | set k r => exact Keeps.map (upsert_keeps_onlyUnder (topKey_of_isPlain k.property) r) _
  | delete k name =>
    exact Keeps.bind (removeRecord_keeps_onlyUnder (topKey_of_isPlain k.property) name true)
      fun _ => Keeps.pure _
  | setFeature plugin key value => exact Keeps.map (setScalar_keeps_onlyUnder rfl _ value) _
  | deleteFeature plugin key =>
    refine Keeps.map (Keeps.bind (removeKey_keeps_onlyUnder rfl _) fun removed => ?_) _
    split
    · exact Keeps.bind (prune_keeps_onlyUnder rfl _) fun _ => Keeps.pure true
    · exact Keeps.pure false
  | setEnv key value => exact Keeps.map (setScalar_keeps_onlyUnder rfl _ value) _
  | deleteEnv key => exact Keeps.map (removeKey_keeps_onlyUnder rfl _) _
  | _ => cases hm

end Options

/-! ## Selections -/

section Selections

open SharedConfig.Action

variable {table : StrategyTable} {m : Mutation} {before : Node}

theorem setScalar_steps (sel : Selection) {name : String} {s s' : Session} {changed : Bool}
    (h : Action.setScalar sel.path name s = (.ok changed, s')) (hs : Steps table m before s.root)
    (hname : sel.Admits name s.root) : Steps table m before s'.root := by
  obtain ⟨honly, hread⟩ := setScalar_selection h
  exact hs.snoc (.select hname honly hread)

theorem removeKey_steps (sel : Selection) :
    Keeps (Steps table m before) (Action.removeKey sel.path) := by
  intro s x s' h hs
  cases h
  exact hs.snoc .unselect

theorem setCurrentContext_steps (name : String) :
    Keeps (Steps table m before) (Action.setCurrentContext name) := by
  intro s x s' h hs
  obtain ⟨c, u, hc, h⟩ := bind_eq_ok.1 h
  obtain ⟨hfind, rfl⟩ := ask_eq_ok.1 hc
  obtain ⟨changed, v, hset, h⟩ := bind_eq_ok.1 h
  have hv : Steps table m before v.root :=
    setScalar_steps (.context c.target) hset hs ⟨c, hfind, rfl⟩
  obtain ⟨root, w, hw, h⟩ := bind_eq_ok.1 h
  obtain ⟨rfl, rfl⟩ := root_eq_ok.1 hw
  split at h
  · rename_i hcond
    obtain ⟨more, t, ht, h⟩ := bind_eq_ok.1 h
    obtain ⟨-, rfl⟩ := pure_eq_ok.1 h
    simp only [Bool.and_eq_true] at hcond
    exact setScalar_steps .server ht hv (RecordKind.contains_iff.1 hcond.2)
  · obtain ⟨-, rfl⟩ := pure_eq_ok.1 h
    exact hv

theorem setCurrentServer_steps (name : String) :
    Keeps (Steps table m before) (Action.setCurrentServer name) := by
  intro s x s' h hs
  obtain ⟨root, u, hu, h⟩ := bind_eq_ok.1 h
  obtain ⟨rfl, rfl⟩ := root_eq_ok.1 hu
  split at h
  · rename_i hserver
    obtain ⟨changed, v, hset, h⟩ := bind_eq_ok.1 h
    have hv : Steps table m before v.root :=
      setScalar_steps .server hset hs (RecordKind.contains_iff.1 hserver)
    obtain ⟨root, w, hw, h⟩ := bind_eq_ok.1 h
    obtain ⟨rfl, rfl⟩ := root_eq_ok.1 hw
    split at h
    · obtain ⟨c, w, hc, h⟩ := bind_eq_ok.1 h
      obtain ⟨hfind, rfl⟩ := ask_eq_ok.1 hc
      obtain ⟨more, t, ht, h⟩ := bind_eq_ok.1 h
      obtain ⟨-, rfl⟩ := pure_eq_ok.1 h
      exact setScalar_steps (.context c.target) ht hv ⟨c, hfind, rfl⟩
    · obtain ⟨-, rfl⟩ := pure_eq_ok.1 h
      exact hv
  · exact absurd h fail_ne_ok

theorem clearTargets_steps (ts : List Target) :
    Keeps (Steps table m before) (Action.clearTargets ts) := by
  induction ts with
  | nil => exact Keeps.pure false
  | cons t ts ih =>
    exact Keeps.bind (removeKey_steps (.context t)) fun removed =>
      Keeps.bind ih fun more => Keeps.pure _

theorem clearCurrentServer_steps (name : String) :
    Keeps (Steps table m before) (Action.clearCurrentServer name) := by
  refine Keeps.bind Keeps.root fun root => ?_
  split
  · exact removeKey_steps .server
  · exact Keeps.pure false

theorem clearCurrentTarget_steps (t : Target) :
    Keeps (Steps table m before) (Action.clearCurrentTarget t) := by
  refine Keeps.bind Keeps.root fun root =>
    Keeps.bind (removeKey_steps (.context t)) fun removed => ?_
  split
  · split
    · exact Keeps.bind (clearCurrentServer_steps _) fun more => Keeps.pure _
    · exact Keeps.pure removed
  · exact Keeps.pure removed

theorem clearCurrentContext_steps (name : String) :
    Keeps (Steps table m before) (Action.clearCurrentContext name) :=
  Keeps.bind Keeps.root fun _ => clearTargets_steps _

end Selections

/-! ## Contexts and servers -/

section Records

open SharedConfig.Action

variable {table : StrategyTable} {before : Node}

theorem runAfter_upsert_eq_ok {k : RecordKind} {r : k.Record} {c : Change}
    (hc : c.run = Action.upsert k r) {done report : Report} {rest : ChangeSet} {s s' : Session}
    (h : ChangeSet.runAfter done (c :: rest) s = (.ok report, s')) :
    ∃ u done', Upserted k r s.strategies s.root u.root ∧ u.strategies = s.strategies ∧
      ChangeSet.runAfter done' rest u = (.ok report, s') := by
  obtain ⟨changed, u, hu, hrest⟩ := bind_eq_ok.1 h
  rw [hc] at hu
  have hstrategies := upsert_strategies r s
  rw [hu] at hstrategies
  exact ⟨u, _, upsert_eq_ok hu, hstrategies, hrest⟩

/-- What is left of changes when the records are written: the selection, if one is asked for. -/
theorem runAfter_select_eq_ok {c : Change} {current : Bool} {done report : Report} {s s' : Session}
    (h : ChangeSet.runAfter done (if current then [c] else []) s = (.ok report, s')) :
    (current = false ∧ s = s') ∨ (current = true ∧ ∃ changed, c.run s = (.ok changed, s')) := by
  cases current with
  | false => exact .inl ⟨rfl, (pure_eq_ok.1 h).2⟩
  | true =>
    obtain ⟨changed, u, hu, hrest⟩ := bind_eq_ok.1 h
    obtain ⟨-, rfl⟩ := pure_eq_ok.1 hrest
    exact .inr ⟨rfl, changed, hu⟩

/-- A context that was set: it was written, with its server if it is one of a cluster, and then it
was selected if that was asked for. -/
theorem setContext_eq_ok {c : Context} {current : Bool} {s s' : Session} {report : Report}
    (h : (ChangeSet.setContext c current).run s = (.ok report, s')) :
    ∃ u, ((c.target.isCluster = false ∧ Upserted .context c s.strategies s.root u.root) ∨
        (c.target.isCluster = true ∧ ∃ written, Upserted .context c s.strategies s.root written ∧
          Upserted .server (.ofContext c) s.strategies written u.root)) ∧
      ((current = false ∧ u = s') ∨
        (current = true ∧ ∃ changed, Action.setCurrentContext c.name u = (.ok changed, s'))) := by
  rw [ChangeSet.run, ChangeSet.setContext, List.append_assoc, List.singleton_append] at h
  obtain ⟨u, done, hu, hstrategies, h⟩ := runAfter_upsert_eq_ok (k := .context) rfl h
  cases hcluster : c.target.isCluster with
  | false =>
    rw [hcluster] at h
    exact ⟨u, .inl ⟨rfl, hu⟩, runAfter_select_eq_ok h⟩
  | true =>
    rw [hcluster, if_pos rfl, List.singleton_append] at h
    obtain ⟨v, done', hv, -, h⟩ := runAfter_upsert_eq_ok (k := .server) rfl h
    rw [hstrategies] at hv
    exact ⟨v, .inr ⟨rfl, u.root, hu, hv⟩, runAfter_select_eq_ok h⟩

/-- A server that was set: it was written with its context, and then it was selected if that was
asked for. -/
theorem setServer_eq_ok {server : Server} {current : Bool} {s s' : Session} {report : Report}
    (h : (ChangeSet.setServer server current).run s = (.ok report, s')) :
    ∃ u written, Upserted .server server s.strategies s.root written ∧
      Upserted .context (.ofServer server) s.strategies written u.root ∧
      ((current = false ∧ u = s') ∨
        (current = true ∧ ∃ changed, Action.setCurrentServer server.name u = (.ok changed, s'))) := by
  rw [ChangeSet.run, ChangeSet.setServer, List.cons_append, List.singleton_append] at h
  obtain ⟨u, done, hu, hstrategies, h⟩ := runAfter_upsert_eq_ok (k := .server) rfl h
  obtain ⟨v, done', hv, -, h⟩ :=
    runAfter_upsert_eq_ok (k := .context) (r := Context.ofServer server) rfl h
  rw [hstrategies] at hv
  exact ⟨v, u.root, hu, hv, runAfter_select_eq_ok h⟩

theorem setContext_steps {c : Context} {current : Bool} {s s' : Session} {report : Report}
    (h : (ChangeSet.setContext c current).run s = (.ok report, s')) :
    Steps s.strategies (.setContext c current) s.root s'.root := by
  obtain ⟨u, hwritten, hselected⟩ := setContext_eq_ok h
  -- between the two updates the document need not be one that an operation leaves
  have hu : Steps s.strategies (.setContext c current) s.root u.root := by
    rcases hwritten with ⟨hcluster, hc⟩ | ⟨hcluster, written, hc, hserver⟩
    · exact .single (.context hcluster hc)
    · exact .single (.cluster hcluster hc hserver)
  rcases hselected with ⟨-, rfl⟩ | ⟨-, changed, hselect⟩
  · exact hu
  · exact setCurrentContext_steps c.name u changed s' hselect hu

theorem setServer_steps {server : Server} {current : Bool} {s s' : Session} {report : Report}
    (h : (ChangeSet.setServer server current).run s = (.ok report, s')) :
    Steps s.strategies (.setServer server current) s.root s'.root := by
  obtain ⟨u, written, hserver, hc, hselected⟩ := setServer_eq_ok h
  have hu : Steps s.strategies (.setServer server current) s.root u.root :=
    .single (.server hserver hc)
  rcases hselected with ⟨-, rfl⟩ | ⟨-, changed, hselect⟩
  · exact hu
  · exact setCurrentServer_steps server.name u changed s' hselect hu

theorem removeContext_steps {name : String} {s s' : Session} {report : Report}
    (h : (ChangeSet.removeContext name).run s = (.ok report, s')) :
    Steps table (.removeContext name) s.root s'.root := by
  obtain ⟨hfails, hsucceeds⟩ := ChangeSet.run_removeContext name s
  cases hc : RecordKind.context.contains name s.root with
  | false =>
    rw [h] at hfails
    cases hfails hc
  | true =>
    obtain ⟨_, t, ht, hroot⟩ := hsucceeds hc
    rw [h] at ht
    cases ht
    rw [hroot]
    exact .single (.removeContext hc)

theorem removeServer_steps {name : String} {s s' : Session} {report : Report}
    (h : (ChangeSet.removeServer name).run s = (.ok report, s')) :
    Steps table (.removeServer name) s.root s'.root := by
  obtain ⟨hfails, hsucceeds⟩ := ChangeSet.run_removeServer name s
  cases hc : RecordKind.server.contains name s.root with
  | false =>
    rw [h] at hfails
    cases hfails hc
  | true =>
    obtain ⟨_, t, ht, hroot⟩ := hsucceeds hc
    rw [h] at ht
    cases ht
    rw [hroot]
    exact .single (.removeServer hc)

end Records

/-! ## Runs -/

namespace Mutation

open SharedConfig.Action

theorem run_steps {m : Mutation} (hm : m.IsOperation) {s s' : Session} {answer : Outcome}
    (h : m.run s = (.ok answer, s')) : Steps s.strategies m s.root s'.root := by
  cases hopt : m.isOption with
  | true =>
    exact .single (.options hopt (run_onlyUnder_options hopt s answer s' h (.refl _ s.root)))
  | false =>
    cases m with
    | apply changes => exact absurd hm id
    | setContext c current =>
      obtain ⟨report, hrun, -⟩ := map_eq_ok.1 h
      exact setContext_steps hrun
    | setServer server current =>
      obtain ⟨report, hrun, -⟩ := map_eq_ok.1 h
      exact setServer_steps hrun
    | removeContext name =>
      obtain ⟨report, hrun, -⟩ := map_eq_ok.1 h
      exact removeContext_steps hrun
    | removeServer name =>
      obtain ⟨report, hrun, -⟩ := map_eq_ok.1 h
      exact removeServer_steps hrun
    | setCurrentContext name =>
      exact Keeps.map (ChangeSet.run_keeps
        (by simpa [Change.run] using setCurrentContext_steps name)) _ s answer s' h .refl
    | removeCurrentContext t =>
      exact Keeps.map (ChangeSet.run_keeps
        (by simpa [Change.run] using clearCurrentTarget_steps t)) _ s answer s' h .refl
    | setCurrentServer name =>
      exact Keeps.map (ChangeSet.run_keeps
        (by simpa [Change.run] using setCurrentServer_steps name)) _ s answer s' h .refl
    | removeCurrentServer name =>
      exact Keeps.map (ChangeSet.run_keeps
        (by simpa [Change.run] using ⟨clearCurrentServer_steps name, clearCurrentContext_steps name⟩))
        _ s answer s' h .refl
    | _ => cases hopt

/-- An operation that succeeds has run on the document; one that fails leaves it. -/
theorem next_cases (m : Mutation) (table : StrategyTable) (root : Node) :
    m.next table root = root ∨ ∃ answer s, m.run (.new root table) = (.ok answer, s) ∧
      m.applyTo table root = .ok (answer, s.root) ∧ m.next table root = s.root := by
  unfold next applyTo
  cases m.check with
  | error e => exact .inl rfl
  | ok u =>
    dsimp only
    rcases hrun : m.run (.new root table) with ⟨e | answer, s⟩
    · exact .inl rfl
    · exact .inr ⟨answer, s, rfl, rfl, rfl⟩

/-- An operation takes steps, and none if it fails. -/
theorem next_steps {m : Mutation} (hm : m.IsOperation) (table : StrategyTable) (root : Node) :
    Steps table m root (m.next table root) := by
  rcases m.next_cases table root with h | ⟨answer, s, hrun, -, h⟩
  · rw [h]
    exact .refl
  · rw [h]
    exact run_steps hm hrun

theorem next_keeps {P : Node → Prop} {m : Mutation} (hm : m.IsOperation) {table : StrategyTable}
    {root : Node}
    (hstep : (m.applyTo table root).isOk = true → ∀ {a b}, Step table m a b → P a → P b)
    (hroot : P root) : P (m.next table root) := by
  rcases m.next_cases table root with h | ⟨answer, s, hrun, happly, h⟩
  · rw [h]
    exact hroot
  · rw [h]
    have hok : (m.applyTo table root).isOk = true := by rw [happly]; rfl
    exact (run_steps hm hrun).keeps (hstep hok) hroot

/-- What every operation keeps holds along every run. -/
theorem nextAll_along {P : Node → Prop} {Q : Mutation → Node → Prop}
    {ms : List (StrategyTable × Mutation)}
    (hnext : ∀ m ∈ ms, ∀ root, ((m.2.applyTo m.1 root).isOk = true → Q m.2 root) → P root →
      P (m.2.next m.1 root))
    {root : Node} (hQ : Along Q ms root) (hroot : P root) : P (nextAll ms root) := by
  induction ms generalizing root with
  | nil => exact hroot
  | cons m ms ih =>
    obtain ⟨hm, hrest⟩ := List.forall_mem_cons.1 hnext
    exact ih hrest hQ.2 (hm root hQ.1 hroot)

theorem along_of_forall {Q : Mutation → Node → Prop} {ms : List (StrategyTable × Mutation)}
    (h : ∀ m ∈ ms, ∀ root, Q m.2 root) (root : Node) : Along Q ms root := by
  induction ms generalizing root with
  | nil => trivial
  | cons m ms ih =>
    obtain ⟨hm, hrest⟩ := List.forall_mem_cons.1 h
    exact ⟨fun _ => hm root, ih hrest _⟩

/-- What every step keeps that the operations of a run take holds along that run. -/
theorem nextAll_keeps {P : Node → Prop} {ms : List (StrategyTable × Mutation)}
    (hms : ∀ m ∈ ms, m.2.IsOperation)
    (hstep : ∀ m ∈ ms, ∀ {a b}, Step m.1 m.2 a b → P a → P b) {root : Node} (hroot : P root) :
    P (nextAll ms root) :=
  nextAll_along (Q := fun _ _ => True)
    (fun m hm a _ ha => (next_steps (hms m hm) m.1 a).keeps (hstep m hm) ha)
    (along_of_forall (fun _ _ _ => trivial) root) hroot

theorem nextAll_induction {P : Node → Prop}
    (hstep : ∀ {table m a b}, Step table m a b → P a → P b)
    {ms : List (StrategyTable × Mutation)} (hms : ∀ m ∈ ms, m.2.IsOperation) {root : Node}
    (hroot : P root) : P (nextAll ms root) :=
  nextAll_keeps hms (fun _ _ => hstep) hroot

end Mutation

end SharedConfig
