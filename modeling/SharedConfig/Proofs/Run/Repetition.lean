import SharedConfig.Proofs.Merge.Again
import SharedConfig.Proofs.Run

/-!
# SharedConfig.Proofs.Run.Repetition

A context or a server that was set is not changed by setting it again.

The second time each change of the list finds what the first one has left: the record under its name
already holds what is merged into it (`Upserted.again`), and each name that is selected is the
selected one.  Changes that find nothing to do leave the session as it is, so the next one finds the
same (`ChangeSet.run_of_settled`).

* `repeated_set_changes_nothing`: the law, for records in whose trees no key and no name stands
  twice.
* `repeated_set_changes_duplicates`: two sources of one name, or two keys of one text, are merged
  into the first.
-/

namespace SharedConfig

open Node

section

open SharedConfig.Action

variable {s t u : Session} {name : String}

/-! ## Changes that find nothing to do -/

/-- An update does nothing if the stored record already holds what is merged into it. -/
theorem upsert_of_held {k : RecordKind} {r : k.Record} {candidate stored : Node}
    (hr : k.encode r = .ok candidate) (hname : candidate.entityName = some (k.recordName r))
    (hstored : k.entity? (k.recordName r) s.root = some stored)
    (hheld : Holds s.strategies k.collection.dotted candidate stored) :
    Action.upsert k r s = (.ok false, s) := by
  replace hheld : mergeNode s.strategies k.collection.dotted candidate stored = (stored, false) :=
    hheld
  obtain ⟨items, hitems, hfound⟩ := RecordKind.entity?_eq_some_iff.1 hstored
  obtain ⟨x, hl, hi⟩ := collection_eq_some_iff.1 hitems
  have hx : upsertInto s.strategies k.collection.dotted candidate x = (x, .ok false) := by
    rw [upsertInto_eq hi hname, hfound, reconcile, hheld, Entity.put_find? hfound]
    dsimp only
    rw [setCore_asSequence hi]
  rw [upsert_of_edit hr (editAt_of_fixed hl hx)]
  simp [Session.edited]

theorem Upserted.again {k : RecordKind} {r : k.Record} {table : StrategyTable} {a b : Node}
    (h : Upserted k r table a b) (hr : k.IsUnambiguous r) (htable : s.strategies = table)
    (hs : s.root.collection k = b.collection k) : Action.upsert k r s = (.ok false, s) := by
  obtain ⟨candidate, hencode, hstored⟩ := h.entity?_self
  have hunambiguous := hr candidate hencode
  have hname := RecordKind.entityName_of_encode hencode h.named
  refine upsert_of_held hencode hname ((RecordKind.entity?_of_collection hs _).trans hstored) ?_
  rw [htable]
  exact reconcile_again hunambiguous (mergeNode_again hunambiguous _) _

theorem setScalar_of_read (sel : Selection) (h : sel.read s.root = some name) :
    Action.setScalar sel.path name s = (.ok false, s) := by
  rw [Selection.read, Selection.path_eq] at h
  rw [Selection.path_eq, Action.setScalar, setScalar_of_getScalar h]
  dsimp only
  rw [if_neg (by simp), if_pos h]
  simp [Session.edited]

theorem ChangeSet.run_of_settled {cs : ChangeSet} (h : ∀ c ∈ cs, c.run s = (.ok false, s)) :
    cs.run s = (.ok ⟨false, 0⟩, s) := by
  have hafter : ∀ done, ChangeSet.runAfter done cs s = (.ok done, s) := by
    induction cs with
    | nil => intro done; rfl
    | cons c rest ih =>
      obtain ⟨hc, hrest⟩ := List.forall_mem_cons.1 h
      intro done
      rw [ChangeSet.runAfter, bind_of_ok hc]
      exact ih hrest done
  exact hafter _

/-! ## Selections -/

/-- A context is the current one of its target, and with a cluster so is the server of its name. -/
structure ContextSelected (name : String) (c : Context) (root : Node) : Prop where
  found : RecordKind.context.find name root = .ok c
  context : (Selection.context c.target).read root = some name
  server : c.target.isCluster = true → RecordKind.server.contains name root = true →
    Selection.server.read root = some name

/-- A server is the current one, and so is the context of its name for its target. -/
structure ServerSelected (name : String) (root : Node) : Prop where
  found : RecordKind.server.contains name root = true
  server : Selection.server.read root = some name
  context : RecordKind.context.contains name root = true → ∃ c,
    RecordKind.context.find name root = .ok c ∧ (Selection.context c.target).read root = some name

theorem setCurrentContext_selects {changed : Bool}
    (h : Action.setCurrentContext name s = (.ok changed, u)) :
    (∀ k : RecordKind, u.root.collection k = s.root.collection k) ∧
      ∃ c, ContextSelected name c u.root ∧ ∀ sel : Selection, sel ≠ .context c.target →
        (sel = .server → (c.target.isCluster && RecordKind.server.contains name u.root) = false) →
        sel.read u.root = sel.read s.root := by
  obtain ⟨c, v, hc, h⟩ := bind_eq_ok.1 h
  obtain ⟨hfind, rfl⟩ := ask_eq_ok.1 hc
  obtain ⟨changed, v, hset, h⟩ := bind_eq_ok.1 h
  obtain ⟨honly, hread⟩ := @setScalar_selection (.context c.target) _ _ _ _ hset
  have hfound : RecordKind.context.find name v.root = .ok c := by
    rw [← hfind]
    exact RecordKind.find_of_collection (honly.collection _) name
  obtain ⟨root, w, hw, h⟩ := bind_eq_ok.1 h
  obtain ⟨rfl, rfl⟩ := root_eq_ok.1 hw
  split at h
  · rename_i hcond
    obtain ⟨more, t, ht, h⟩ := bind_eq_ok.1 h
    obtain ⟨-, rfl⟩ := pure_eq_ok.1 h
    obtain ⟨honly', hread'⟩ := @setScalar_selection .server _ _ _ _ ht
    have hcollections : ∀ k : RecordKind, t.root.collection k = v.root.collection k :=
      honly'.collection
    refine ⟨fun k => (hcollections k).trans (honly.collection k), c, ⟨?_, ?_, fun _ _ => hread'⟩,
      fun sel hsel hserver => ?_⟩
    · rw [← hfound]
      exact RecordKind.find_of_collection (hcollections _) name
    · rw [honly'.others _ (by simp)]
      exact hread
    · have hne : sel ≠ .server := fun he => by
        have hboth := hserver he
        rw [RecordKind.contains_of_collection (hcollections _), hcond] at hboth
        cases hboth
      exact (honly'.others sel hne).trans (honly.others sel hsel)
  · rename_i hcond
    obtain ⟨-, rfl⟩ := pure_eq_ok.1 h
    refine ⟨honly.collection, c, ⟨hfound, hread, fun hcluster hserver => absurd ?_ hcond⟩,
      fun sel hsel _ => honly.others sel hsel⟩
    rw [hcluster, hserver]
    rfl

theorem setCurrentContext_of_selected {c : Context} (h : ContextSelected name c t.root) :
    Action.setCurrentContext name t = (.ok false, t) := by
  have hask : Action.ask (RecordKind.context.find name) t = (.ok c, t) :=
    ask_eq_ok.2 ⟨h.found, rfl⟩
  have hset : Action.setScalar (currentContextPath c.target) name t = (.ok false, t) :=
    setScalar_of_read (.context c.target) h.context
  have hroot : Action.root t = (.ok t.root, t) := rfl
  rw [Action.setCurrentContext, bind_of_ok hask, bind_of_ok hset, bind_of_ok hroot]
  split
  · rename_i hcond
    rw [Bool.and_eq_true] at hcond
    have hserver : Action.setScalar currentServerPath name t = (.ok false, t) :=
      setScalar_of_read .server (h.server hcond.1 hcond.2)
    rw [bind_of_ok hserver]
    rfl
  · rfl

theorem setCurrentServer_selects {changed : Bool}
    (h : Action.setCurrentServer name s = (.ok changed, u)) :
    (∀ k : RecordKind, u.root.collection k = s.root.collection k) ∧ ServerSelected name u.root ∧
      ∀ t, (∀ c, RecordKind.context.find name u.root = .ok c → t ≠ c.target) →
        (Selection.context t).read u.root = (Selection.context t).read s.root := by
  obtain ⟨root, v, hv, h⟩ := bind_eq_ok.1 h
  obtain ⟨rfl, rfl⟩ := root_eq_ok.1 hv
  split at h
  case isFalse => exact absurd h fail_ne_ok
  rename_i hserver
  obtain ⟨changed, v, hset, h⟩ := bind_eq_ok.1 h
  obtain ⟨honly, hread⟩ := @setScalar_selection .server _ _ _ _ hset
  have hcontains : RecordKind.server.contains name v.root = true := by
    rw [← hserver]
    exact RecordKind.contains_of_collection (honly.collection _) name
  obtain ⟨root, w, hw, h⟩ := bind_eq_ok.1 h
  obtain ⟨rfl, rfl⟩ := root_eq_ok.1 hw
  split at h
  · obtain ⟨c, w, hc, h⟩ := bind_eq_ok.1 h
    obtain ⟨hfind, rfl⟩ := ask_eq_ok.1 hc
    obtain ⟨more, t, ht, h⟩ := bind_eq_ok.1 h
    obtain ⟨-, rfl⟩ := pure_eq_ok.1 h
    obtain ⟨honly', hread'⟩ := @setScalar_selection (.context c.target) _ _ _ _ ht
    have hfound : RecordKind.context.find name t.root = .ok c := by
      rw [← hfind]
      exact RecordKind.find_of_collection (honly'.collection _) name
    refine ⟨fun k => (honly'.collection k).trans (honly.collection k),
      ⟨?_, ?_, fun _ => ⟨c, hfound, hread'⟩⟩, fun other hother => ?_⟩
    · rw [← hcontains]
      exact RecordKind.contains_of_collection (honly'.collection _) name
    · rw [honly'.others _ (by simp)]
      exact hread
    · rw [honly'.others _ (by simpa using hother c hfound), honly.others _ (by simp)]
  · rename_i hcontext
    obtain ⟨-, rfl⟩ := pure_eq_ok.1 h
    exact ⟨honly.collection, ⟨hcontains, hread, fun hc => absurd hc hcontext⟩,
      fun other _ => honly.others _ (by simp)⟩

theorem setCurrentServer_of_selected (h : ServerSelected name t.root) :
    Action.setCurrentServer name t = (.ok false, t) := by
  have hroot : Action.root t = (.ok t.root, t) := rfl
  have hset : Action.setScalar currentServerPath name t = (.ok false, t) :=
    setScalar_of_read .server h.server
  rw [Action.setCurrentServer, bind_of_ok hroot, if_pos h.found, bind_of_ok hset, bind_of_ok hroot]
  split
  · rename_i hcontext
    obtain ⟨c, hfind, hread⟩ := h.context hcontext
    have hask : Action.ask (RecordKind.context.find name) t = (.ok c, t) :=
      ask_eq_ok.2 ⟨hfind, rfl⟩
    have hselect : Action.setScalar (currentContextPath c.target) name t = (.ok false, t) :=
      setScalar_of_read (.context c.target) hread
    rw [bind_of_ok hask, bind_of_ok hselect]
    rfl
  · rfl

/-! ## Setting a record again -/

variable {report : Report} {current : Bool}

theorem setContext_again {c : Context} (hc : RecordKind.context.IsUnambiguous c)
    (h : (ChangeSet.setContext c current).run s = (.ok report, u)) (ht : t.root = u.root)
    (htable : t.strategies = s.strategies) :
    (ChangeSet.setContext c current).run t = (.ok ⟨false, 0⟩, t) := by
  obtain ⟨v, hwritten, hselected⟩ := setContext_eq_ok h
  have hcollections : ∀ k : RecordKind, t.root.collection k = v.root.collection k := by
    rw [ht]
    rcases hselected with ⟨-, rfl⟩ | ⟨-, changed, hselect⟩
    · exact fun k => rfl
    · exact (setCurrentContext_selects hselect).1
  refine ChangeSet.run_of_settled fun d hd => ?_
  rw [ChangeSet.setContext, List.mem_append, List.mem_append, List.mem_ite_nil_right,
    List.mem_ite_nil_right, List.mem_singleton, List.mem_singleton, List.mem_singleton] at hd
  rcases hd with (rfl | ⟨hcluster, rfl⟩) | ⟨hcurrent, rfl⟩
  · rcases hwritten with ⟨-, hcontext⟩ | ⟨-, written, hcontext, hserver⟩
    · exact hcontext.again hc htable (hcollections .context)
    · exact hcontext.again hc htable
        ((hcollections .context).trans (hserver.frame.collection (by decide)))
  · rcases hwritten with ⟨hno, -⟩ | ⟨-, written, hcontext, hserver⟩
    · rw [hcluster] at hno
      cases hno
    · obtain ⟨tree, htree, -⟩ := hcontext.collection
      exact hserver.again (Server.isUnambiguous_ofContext htree hc) htable (hcollections .server)
  · rcases hselected with ⟨hno, -⟩ | ⟨-, changed, hselect⟩
    · rw [hcurrent] at hno
      cases hno
    · obtain ⟨-, c', hc', -⟩ := setCurrentContext_selects hselect
      exact setCurrentContext_of_selected (ht ▸ hc')

theorem setServer_again {server : Server} (hserver : RecordKind.server.IsUnambiguous server)
    (h : (ChangeSet.setServer server current).run s = (.ok report, u)) (ht : t.root = u.root)
    (htable : t.strategies = s.strategies) :
    (ChangeSet.setServer server current).run t = (.ok ⟨false, 0⟩, t) := by
  obtain ⟨v, written, hwritten, hcontext, hselected⟩ := setServer_eq_ok h
  have hcollections : ∀ k : RecordKind, t.root.collection k = v.root.collection k := by
    rw [ht]
    rcases hselected with ⟨-, rfl⟩ | ⟨-, changed, hselect⟩
    · exact fun k => rfl
    · exact (setCurrentServer_selects hselect).1
  refine ChangeSet.run_of_settled fun d hd => ?_
  rw [ChangeSet.setServer, List.mem_append, List.mem_ite_nil_right, List.mem_cons,
    List.mem_singleton, List.mem_singleton] at hd
  rcases hd with (rfl | rfl) | ⟨hcurrent, rfl⟩
  · exact hwritten.again hserver htable
      ((hcollections .server).trans (hcontext.frame.collection (by decide)))
  · exact hcontext.again (Context.isUnambiguous_ofServer hserver) htable (hcollections .context)
  · rcases hselected with ⟨hno, -⟩ | ⟨-, changed, hselect⟩
    · rw [hcurrent] at hno
      cases hno
    · exact setCurrentServer_of_selected (ht ▸ (setCurrentServer_selects hselect).2.1)

end

/-- Setting a context or a server again changes nothing, if no key and no name stands twice in its
tree. -/
theorem repeated_set_changes_nothing (table : StrategyTable) (root : Node) (current : Bool) :
    (∀ (c : Context) (report : Report) (s : Session), RecordKind.context.IsUnambiguous c →
      (ChangeSet.setContext c current).run (.new root table) = (.ok report, s) →
      (ChangeSet.setContext c current).run (.new s.root table) =
        (.ok ⟨false, 0⟩, .new s.root table)) ∧
    (∀ (server : Server) (report : Report) (s : Session), RecordKind.server.IsUnambiguous server →
      (ChangeSet.setServer server current).run (.new root table) = (.ok report, s) →
      (ChangeSet.setServer server current).run (.new s.root table) =
        (.ok ⟨false, 0⟩, .new s.root table)) :=
  ⟨fun _ _ _ hc h => setContext_again hc h rfl rfl,
    fun _ _ _ hserver h => setServer_again hserver h rfl rfl⟩

/-- A context of a cluster with two sources and nested metadata, over a stored one of another
kind. -/
theorem repeated_set_changes_nothing_over_stored :
    let c : Context := { Context.new "a" .kubernetes with
      clusterOpts := some ⟨"https://a", "", "admin", true⟩
      discoverySources := [.image "d" "x", .directory "e" "y"]
      additionalMetadata := [("m", .mapping [(.string "k", .sequence [.bool true, .null])])] }
    let document : Node := .mapping [(.string "contexts", .sequence [.mapping
      [(.string "name", .string "a"), (.string "target", .string "tanzu"),
        (.string "discoverySources", .sequence [(PluginDiscovery.image "d" "z").encode])]])]
    RecordKind.context.IsUnambiguous c ∧
      ∃ s, (ChangeSet.setContext c true).run (.new document .empty) = (.ok ⟨true, 3⟩, s) ∧
        (ChangeSet.setContext c true).run (.new s.root .empty) =
          (.ok ⟨false, 0⟩, .new s.root .empty) := by
  intro c document
  have hc : RecordKind.context.IsUnambiguous c := by
    intro tree htree
    cases htree
    decide
  obtain ⟨s, hs⟩ : ∃ s, (ChangeSet.setContext c true).run (.new document .empty) =
      (.ok ⟨true, 3⟩, s) := ⟨_, rfl⟩
  exact ⟨hc, s, hs, (repeated_set_changes_nothing .empty document true).1 c _ s hc hs⟩

/-- Of two sources of one name, and of two keys of one text, both are merged into the first: setting
such a context again changes it. -/
theorem repeated_set_changes_duplicates :
    let sources : Context := { Context.new "a" .tanzu with
      discoverySources := [.image "d" "x", .image "d" "y"] }
    let metadata : Context := { Context.new "a" .tanzu with
      additionalMetadata :=
        [("m", .mapping [(.string "1", .string "x"), (.number (.int 1), .string "y")])] }
    ∀ c ∈ [sources, metadata], ∃ s s',
      (ChangeSet.setContext c false).run (.new (.mapping []) .empty) = (.ok ⟨true, 1⟩, s) ∧
        (ChangeSet.setContext c false).run (.new s.root .empty) = (.ok ⟨true, 1⟩, s') ∧
        s'.root ≠ s.root := by
  intro sources metadata
  refine List.forall_mem_cons.2
    ⟨⟨_, _, rfl, rfl, ?_⟩, List.forall_mem_singleton.2 ⟨_, _, rfl, rfl, ?_⟩⟩
  · decide
  · decide

end SharedConfig
