import SharedConfig.Proofs.Record
import SharedConfig.Proofs.Run.Repetition

/-!
# SharedConfig.Proofs.Run.Recovery

A context or a server that was set where there was none of its name is found as it was set, and so
is the one that is written for it.

* `Upserted.find_new`: a new record is found as it was written.
* `set_then_found`: the law for contexts and servers.
-/

namespace SharedConfig

open Node

section

open SharedConfig.Action

variable {s u : Session} {name : String} {report : Report} {current : Bool}

/-! ## New records -/

theorem Upserted.find_new {k : RecordKind} {r : k.Record} {table : StrategyTable} {a b : Node}
    (h : Upserted k r table a b) (hr : k.IsRestorable r)
    (hnew : k.contains (k.recordName r) a = false) : k.find (k.recordName r) b = .ok r := by
  obtain ⟨candidate, hencode, hstored⟩ := h.entity?_self
  have habsent : k.entity? (k.recordName r) a = none := by
    simpa [RecordKind.contains] using hnew
  rw [habsent, reconcile_none] at hstored
  exact RecordKind.find_eq_ok_iff.2 ⟨candidate, hstored, RecordKind.decode_encode hr hencode⟩

theorem Context.isRestorable_ofServer (server : Server) :
    RecordKind.context.IsRestorable (Context.ofServer server) :=
  ⟨⟨List.Pairwise.nil, List.forall_mem_nil _⟩, List.forall_mem_nil _⟩

/-! ## What a selection leaves alone -/

theorem setScalar_child? {key : String} {x : Option Node} (sel : Selection)
    (hkey : key ≠ sel.topKey) (value : String) :
    Keeps (fun n => n.child? key = x) (Action.setScalar sel.path value) := by
  intro s changed s' h hs
  exact ((setScalar_selection h).1.frame.child? hkey).trans hs

theorem setCurrentContext_child? {key : String} {x : Option Node}
    (hcontext : key ≠ "currentContext") (hserver : key ≠ "currentServer") :
    Keeps (fun n => n.child? key = x) (Action.setCurrentContext name) := by
  refine Keeps.bind (fun s c s' h hs => ?_) fun c =>
    Keeps.bind (setScalar_child? (.context c.target) hcontext name) fun changed =>
      Keeps.bind Keeps.root fun root => ?_
  · obtain ⟨-, rfl⟩ := ask_eq_ok.1 h
    exact hs
  · split
    · exact Keeps.bind (setScalar_child? .server hserver name) fun more => Keeps.pure _
    · exact Keeps.pure _

/-! ## Contexts and servers -/

theorem setContext_found {c : Context} (hc : RecordKind.context.IsRestorable c)
    (hcontext : RecordKind.context.contains c.name s.root = false)
    (hserver : RecordKind.server.contains c.name s.root = false)
    (h : (ChangeSet.setContext c current).run s = (.ok report, u)) :
    RecordKind.context.find c.name u.root = .ok c ∧
      (c.target.isCluster = true → RecordKind.server.find c.name u.root = .ok (.ofContext c)) ∧
      (c.target.isCluster = false → u.root.child? "servers" = s.root.child? "servers") := by
  obtain ⟨v, hwritten, hselected⟩ := setContext_eq_ok h
  have hcollections : ∀ k : RecordKind, u.root.collection k = v.root.collection k := by
    rcases hselected with ⟨-, rfl⟩ | ⟨-, changed, hselect⟩
    · exact fun k => rfl
    · exact (setCurrentContext_selects hselect).1
  have hservers : u.root.child? "servers" = v.root.child? "servers" := by
    rcases hselected with ⟨-, rfl⟩ | ⟨-, changed, hselect⟩
    · rfl
    · exact setCurrentContext_child? (by decide) (by decide) _ _ _ hselect rfl
  rw [RecordKind.find_of_collection (hcollections .context),
    RecordKind.find_of_collection (hcollections .server), hservers]
  rcases hwritten with ⟨hcluster, hc'⟩ | ⟨hcluster, written, hc', hserver'⟩
  · refine ⟨hc'.find_new hc hcontext, fun h => ?_, fun _ => hc'.frame.child? (by decide)⟩
    rw [hcluster] at h
    cases h
  · refine ⟨?_, fun _ => hserver'.find_new trivial ?_, fun h => ?_⟩
    · rw [RecordKind.find_of_collection (hserver'.frame.collection (by decide))]
      exact hc'.find_new hc hcontext
    · rw [RecordKind.contains_of_collection (hc'.frame.collection (by decide))]
      exact hserver
    · rw [hcluster] at h
      cases h

theorem setServer_found {server : Server}
    (hcontext : RecordKind.context.contains server.name s.root = false)
    (hserver : RecordKind.server.contains server.name s.root = false)
    (h : (ChangeSet.setServer server current).run s = (.ok report, u)) :
    RecordKind.server.find server.name u.root = .ok server ∧
      RecordKind.context.find server.name u.root = .ok (.ofServer server) := by
  obtain ⟨v, written, hwritten, hc, hselected⟩ := setServer_eq_ok h
  have hcollections : ∀ k : RecordKind, u.root.collection k = v.root.collection k := by
    rcases hselected with ⟨-, rfl⟩ | ⟨-, changed, hselect⟩
    · exact fun k => rfl
    · exact (setCurrentServer_selects hselect).1
  rw [RecordKind.find_of_collection (hcollections .context),
    RecordKind.find_of_collection (hcollections .server)]
  constructor
  · rw [RecordKind.find_of_collection (hc.frame.collection (by decide))]
    exact hwritten.find_new trivial hserver
  · refine hc.find_new (Context.isRestorable_ofServer server) ?_
    rw [RecordKind.contains_of_collection (hwritten.frame.collection (by decide))]
    exact hcontext

end

/-- A context or a server of a new name that was set is found as it was set; with a context of a
cluster its server is found, with another one the servers are what they were, and with a server its
context is found. -/
theorem set_then_found (table : StrategyTable) (root : Node) (current : Bool) :
    (∀ (c : Context) (report : Report) (s : Session), c.WellFormedMetadata →
      c.HasUntaggedMetadata → RecordKind.context.contains c.name root = false →
      RecordKind.server.contains c.name root = false →
      (ChangeSet.setContext c current).run (.new root table) = (.ok report, s) →
      RecordKind.context.find c.name s.root = .ok c ∧
        (c.target = .kubernetes → RecordKind.server.find c.name s.root = .ok (.ofContext c)) ∧
        (c.target ≠ .kubernetes → s.root.child? "servers" = root.child? "servers")) ∧
    (∀ (server : Server) (report : Report) (s : Session),
      RecordKind.context.contains server.name root = false →
      RecordKind.server.contains server.name root = false →
      (ChangeSet.setServer server current).run (.new root table) = (.ok report, s) →
      RecordKind.server.find server.name s.root = .ok server ∧
        RecordKind.context.find server.name s.root = .ok (.ofServer server)) := by
  have hkubernetes : ∀ t : Target, (t.isCluster = true ↔ t = .kubernetes) := by
    intro t
    cases t <;> simp [Target.isCluster]
  refine ⟨fun c report s hmetadata huntagged hcontext hserver h => ?_,
    fun server report s hcontext hserver h => setServer_found hcontext hserver h⟩
  obtain ⟨hfound, hcluster, hother⟩ := setContext_found ⟨hmetadata, huntagged⟩ hcontext hserver h
  exact ⟨hfound, fun ht => hcluster ((hkubernetes c.target).2 ht), fun ht =>
    hother (Bool.eq_false_iff.2 fun h => ht ((hkubernetes c.target).1 h))⟩

/-- A context of a cluster with every part, and a server, each next to a context of another name. -/
theorem set_then_found_next_to_other :
    let c : Context := { Context.new "a" .kubernetes with
      globalOpts := some ⟨"", some ⟨some "i", none, none, none, some "", none, some "t"⟩⟩
      clusterOpts := some ⟨"https://a", "", "admin", true⟩
      discoverySources := [.image "d" "x", .directory "d" "y"]
      additionalMetadata := [("k", .number (.float (.finite false 6755399441055744 (-52)))),
        ("m", .mapping [(.string "1", .null), (.number (.int 1), .sequence [.bool true])])] }
    let server : Server := { Server.new "b" .global with discoverySources := [.image "d" "x"] }
    let document : Node := .mapping [(.string "contexts", .tagged "t" (.sequence [.mapping
      [(.string "name", .string "A"), (.string "target", .string "tanzu")]]))]
    ∃ s t, (ChangeSet.setContext c true).run (.new document .empty) = (.ok ⟨true, 3⟩, s) ∧
      RecordKind.context.find "a" s.root = .ok c ∧
      RecordKind.server.find "a" s.root = .ok (.ofContext c) ∧
      (ChangeSet.setServer server true).run (.new document .empty) = (.ok ⟨true, 3⟩, t) ∧
      RecordKind.server.find "b" t.root = .ok server ∧
      RecordKind.context.find "b" t.root = .ok (.ofServer server) := by
  intro c server document
  have hset : ((ChangeSet.setContext c true).run (.new document .empty)).1 = .ok ⟨true, 3⟩ := by
    decide +kernel
  have hset' : ((ChangeSet.setServer server true).run (.new document .empty)).1 =
      .ok ⟨true, 3⟩ := by
    decide +kernel
  rcases hs : (ChangeSet.setContext c true).run (.new document .empty) with ⟨answer, s⟩
  rcases ht : (ChangeSet.setServer server true).run (.new document .empty) with ⟨answer', t⟩
  obtain rfl : answer = .ok ⟨true, 3⟩ := (congrArg Prod.fst hs).symm.trans hset
  obtain rfl : answer' = .ok ⟨true, 3⟩ := (congrArg Prod.fst ht).symm.trans hset'
  have hmetadata : c.WellFormedMetadata := ⟨by decide, by decide +kernel⟩
  have huntagged : c.HasUntaggedMetadata := by
    unfold Context.HasUntaggedMetadata
    decide
  obtain ⟨hcontext, hserver, -⟩ := (set_then_found .empty document true).1 c _ s hmetadata
    huntagged rfl rfl hs
  exact ⟨s, t, rfl, hcontext, hserver rfl, rfl,
    (set_then_found .empty document true).2 server _ t rfl rfl ht⟩

end SharedConfig
