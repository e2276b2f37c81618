import SharedConfig.Proofs.Decoding.Apart
import SharedConfig.Proofs.Run.Repetition
import SharedConfig.Proofs.Run.Targets

/-!
# SharedConfig.Proofs.Run.Selecting

What is selected is the current one, and no other selection moves.

A context is selected for the target that it has in the document, after it was merged there; that is
its new target if no two keys of the stored context are equal as values.

* `Upserted.found_context`: the name and the target of a context that was written.
* `selected_becomes_current`: contexts and servers that are selected, by themselves or as they are
  set.
-/

namespace SharedConfig

open Node

/-! ## What selecting does -/

/-- A context becomes the current one of its target, with the server of its name if it is one of a
cluster. -/
structure SelectsContext (name : String) (c : Context) (before after : Node) : Prop where
  current : currentContext c.target after = .ok c
  others : ∀ t, t ≠ c.target → (Selection.context t).read after = (Selection.context t).read before
  server : c.target = .kubernetes → RecordKind.server.contains name after = true →
    Selection.server.read after = some name
  server_stays : ¬ (c.target = .kubernetes ∧ RecordKind.server.contains name after = true) →
    Selection.server.read after = Selection.server.read before

/-- A server becomes the current one, and the context of its name that of its target. -/
structure SelectsServer (name : String) (before after : Node) : Prop where
  server : Selection.server.read after = some name
  current : currentServer after = RecordKind.server.find name after
  context : RecordKind.context.contains name after = true → ∃ c,
    RecordKind.context.find name after = .ok c ∧ currentContext c.target after = .ok c
  others : ∀ t, (∀ c, RecordKind.context.find name after = .ok c → t ≠ c.target) →
    (Selection.context t).read after = (Selection.context t).read before

theorem SelectsContext.of_reads {name : String} {c : Context} {a b after : Node}
    (h : SelectsContext name c b after) (hread : ∀ sel : Selection, sel.read b = sel.read a) :
    SelectsContext name c a after where
  current := h.current
  others t ht := (h.others t ht).trans (hread _)
  server := h.server
  server_stays hno := (h.server_stays hno).trans (hread _)

theorem SelectsServer.of_reads {name : String} {a b after : Node}
    (h : SelectsServer name b after) (hread : ∀ sel : Selection, sel.read b = sel.read a) :
    SelectsServer name a after where
  server := h.server
  current := h.current
  context := h.context
  others t ht := (h.others t ht).trans (hread _)

section

variable {s u : Session} {name : String} {changed : Bool} {report : Report}

theorem Target.isCluster_iff {t : Target} : t.isCluster = true ↔ t = .kubernetes := by
  cases t <;> simp [isCluster]

theorem setCurrentContext_selectsContext (h : Action.setCurrentContext name s = (.ok changed, u)) :
    ∃ c, RecordKind.context.find name s.root = .ok c ∧ SelectsContext name c s.root u.root := by
  obtain ⟨hcollections, c, hc, hothers⟩ := setCurrentContext_selects h
  refine ⟨c, ?_, currentContext_eq_ok_iff.2 ⟨name, hc.context, hc.found⟩, fun t ht => ?_,
    fun hcluster => hc.server (Target.isCluster_iff.2 hcluster), fun hno => ?_⟩
  · rw [← hc.found]
    exact (RecordKind.find_of_collection (hcollections _) name).symm
  · exact hothers (.context t) (by simpa using ht) fun heq => by cases heq
  · refine hothers .server (by simp) fun _ => ?_
    rw [← Bool.not_eq_true, Bool.and_eq_true, Target.isCluster_iff]
    exact hno

theorem setCurrentServer_selectsServer (h : Action.setCurrentServer name s = (.ok changed, u)) :
    SelectsServer name s.root u.root := by
  obtain ⟨-, hserver, hothers⟩ := setCurrentServer_selects h
  refine ⟨hserver.server, ?_, fun hcontains => ?_, hothers⟩
  · have hread : u.root.getScalar currentServerPath = some name := hserver.server
    rw [currentServer, hread]
    dsimp only
    rw [if_pos hserver.found]
  · obtain ⟨c, hfound, hread⟩ := hserver.context hcontains
    exact ⟨c, hfound, currentContext_eq_ok_iff.2 ⟨name, hread, hfound⟩⟩

/-! ## Contexts that were written -/

/-- A context that was written is found with its name and its target, if no two keys of the stored
context are equal as values. -/
theorem Upserted.found_context {c d : Context} {table : StrategyTable} {a b : Node}
    (h : Upserted .context c table a b)
    (hapart : ∀ stored, RecordKind.context.entity? c.name a = some stored → stored.ApartKeys)
    (hd : RecordKind.context.find c.name b = .ok d) : d.name = c.name ∧ d.target = c.target := by
  obtain ⟨candidate, hr, hname, hafter⟩ := h.put
  obtain ⟨candidate', hr', hentity⟩ := h.entity?_self
  cases hr.symm.trans hr'
  obtain ⟨n, hn, hdecode⟩ := RecordKind.find_eq_ok_iff.1 hd
  cases hentity.symm.trans hn
  obtain ⟨m, rfl, hfields, htarget⟩ :=
    Context.encode_eq_mapping (RecordKind.encode_context_eq_ok.1 hr)
  have htexts := Context.texts_encode (RecordKind.encode_context_eq_ok.1 hr)
  have hkept := (ApartKeys.reconciled hfields.nodup htexts hapart table
    RecordKind.context.collection.dotted).keptByText
  obtain ⟨v, hv, hcore⟩ := child?_reconcile_scalar table RecordKind.context.collection.dotted
    hfields.nodup htarget (RecordKind.context.entity? c.name a)
  exact ⟨Context.name_eq_of_decode hkept hdecode hname,
    Context.target_eq_of_decode hkept hdecode hv hcore⟩

/-! ## Contexts and servers that are set and selected -/

theorem setContext_selectsContext {c : Context}
    (h : (ChangeSet.setContext c true).run s = (.ok report, u)) :
    ∃ d, SelectsContext c.name d s.root u.root ∧
      ((∀ stored, RecordKind.context.entity? c.name s.root = some stored → stored.ApartKeys) →
        d.name = c.name ∧ d.target = c.target ∧
        (c.target = .kubernetes → Selection.server.read u.root = some c.name)) := by
  obtain ⟨v, hwritten, hselected⟩ := setContext_eq_ok h
  rcases hselected with ⟨hno, -⟩ | ⟨-, changed, hselect⟩
  · cases hno
  obtain ⟨d, hfound, hd⟩ := setCurrentContext_selectsContext hselect
  rcases hwritten with ⟨hcluster, hc⟩ | ⟨-, written, hc, hserver⟩
  · refine ⟨d, hd.of_reads hc.read, fun hapart => ?_⟩
    obtain ⟨hname, htarget⟩ := hc.found_context hapart hfound
    refine ⟨hname, htarget, fun hkubernetes => ?_⟩
    rw [Target.isCluster_iff.2 hkubernetes] at hcluster
    cases hcluster
  -- the server is written beside the context, so it is there to be selected
  · rw [RecordKind.find_of_collection (hserver.frame.collection (by decide))] at hfound
    have hreads : ∀ sel : Selection, sel.read v.root = sel.read s.root := fun sel =>
      (hserver.read sel).trans (hc.read sel)
    have hcontains : RecordKind.server.contains c.name u.root = true := by
      rw [RecordKind.contains_of_collection ((setCurrentContext_selects hselect).1 _),
        RecordKind.contains_iff]
      exact hserver.mem_names_iff.2 (.inr rfl)
    refine ⟨d, hd.of_reads hreads, fun hapart => ?_⟩
    obtain ⟨hname, htarget⟩ := hc.found_context hapart hfound
    exact ⟨hname, htarget, fun hkubernetes => hd.server (htarget.trans hkubernetes) hcontains⟩

theorem setServer_selectsServer {server : Server}
    (h : (ChangeSet.setServer server true).run s = (.ok report, u)) :
    SelectsServer server.name s.root u.root := by
  obtain ⟨v, written, hserver, hc, hselected⟩ := setServer_eq_ok h
  rcases hselected with ⟨hno, -⟩ | ⟨-, changed, hselect⟩
  · cases hno
  · exact (setCurrentServer_selectsServer hselect).of_reads fun sel =>
      (hc.read sel).trans (hserver.read sel)

end

/-- Selecting makes current what is selected and moves no other selection, whatever the table says.
A context that is set is selected for the target that it was given if no two keys of the stored one
are equal as values. -/
theorem selected_becomes_current (s : Session) :
    (∀ (c : Context) (report : Report) (u : Session),
      (ChangeSet.setContext c true).run s = (.ok report, u) →
      ∃ d, SelectsContext c.name d s.root u.root ∧
        ((∀ stored, RecordKind.context.entity? c.name s.root = some stored → stored.ApartKeys) →
          d.name = c.name ∧ d.target = c.target ∧
          (c.target = .kubernetes → Selection.server.read u.root = some c.name))) ∧
    (∀ (name : String) (changed : Bool) (u : Session),
      (Change.setCurrentContext name).run s = (.ok changed, u) →
      ∃ c, RecordKind.context.find name s.root = .ok c ∧ SelectsContext name c s.root u.root) ∧
    (∀ (server : Server) (report : Report) (u : Session),
      (ChangeSet.setServer server true).run s = (.ok report, u) →
      SelectsServer server.name s.root u.root) ∧
    ∀ (name : String) (changed : Bool) (u : Session),
      (Change.setCurrentServer name).run s = (.ok changed, u) → SelectsServer name s.root u.root :=
  ⟨fun _ _ _ h => setContext_selectsContext h,
    fun _ _ _ h => setCurrentContext_selectsContext h,
    fun _ _ _ h => setServer_selectsServer h,
    fun _ _ _ h => setCurrentServer_selectsServer h⟩

/-- A context that is set for another target, next to a tagged one and to what other tools have
selected, and then a server. -/
theorem selected_becomes_current_for_other_target :
    let document : Node := .mapping [
      (.string "contexts", .tagged "list" (.sequence [
        .mapping [(.string "name", .string "a"), (⟨"target", .str, some "t"⟩, .string "tanzu"),
          (.string "vendor", .scalar .null)],
        .mapping [(.string "name", .string "b"), (.string "target", .string "tanzu")]])),
      (.string "currentContext", .tagged "t" (.mapping [(.string "tanzu", .string "b"),
        (.string "vendor", .sequence [])])),
      (.string "currentServer", .scalar .null)]
    ∃ u v w x,
      (ChangeSet.setContext (.new "a" .kubernetes) true).run (.new document .empty) =
        (.ok ⟨true, 3⟩, u) ∧
      (∃ d, SelectsContext "a" d document u.root ∧ d.name = "a" ∧ d.target = .kubernetes ∧
        Selection.server.read u.root = some "a") ∧
      (ChangeSet.setServer (.new "g" .global) true).run u = (.ok ⟨true, 3⟩, v) ∧
      SelectsServer "g" u.root v.root ∧
      (Change.setCurrentContext "b").run v = (.ok false, w) ∧
      (∃ c, RecordKind.context.find "b" v.root = .ok c ∧ SelectsContext "b" c v.root w.root) ∧
      (Change.setCurrentServer "a").run w = (.ok true, x) ∧ SelectsServer "a" w.root x.root := by
  intro document
  obtain ⟨u, v, w, x, hu, hv, hw, hx, hstored⟩ : ∃ u v w x,
      (ChangeSet.setContext (.new "a" .kubernetes) true).run (.new document .empty) =
        (.ok ⟨true, 3⟩, u) ∧
      (ChangeSet.setServer (.new "g" .global) true).run u = (.ok ⟨true, 3⟩, v) ∧
      (Change.setCurrentContext "b").run v = (.ok false, w) ∧
      (Change.setCurrentServer "a").run w = (.ok true, x) ∧
      ∃ stored, RecordKind.context.entity? "a" document = some stored ∧ stored.KeysApart :=
    ⟨_, _, _, _, rfl, rfl, rfl, rfl, _, rfl, by decide⟩
  obtain ⟨stored, hentity, hapart⟩ := hstored
  obtain ⟨d, hd, hgiven⟩ := (selected_becomes_current _).1 _ _ _ hu
  obtain ⟨hname, htarget, hserver⟩ := hgiven fun other hother => by
    cases hentity.symm.trans hother
    exact hapart.apartKeys
  exact ⟨u, v, w, x, hu, ⟨d, hd, hname, htarget, hserver rfl⟩, hv,
    (selected_becomes_current u).2.2.1 _ _ _ hv, hw, (selected_becomes_current v).2.1 _ _ _ hw, hx,
    (selected_becomes_current w).2.2.2 _ _ _ hx⟩

/-- A context with two targets, under keys of which one has an empty tag.  The new target takes the
place of the first, the second is read, and the context is selected for that one. -/
theorem selected_not_current_with_equal_keys :
    let document : Yaml.Value := .mapping [(.string "contexts", .sequence [.mapping [
      (.string "name", .string "a"), (.string "target", .string "kubernetes"),
      (.tagged "!" (.string "target"), .string "tanzu")]])]
    document.WellFormed ∧ ∃ root u, Node.ofValue document = .ok root ∧
      (ChangeSet.setContext (.new "a" .kubernetes) true).run (.new root .empty) =
        (.ok ⟨true, 2⟩, u) ∧
      currentContext .kubernetes u.root = .error (.notFound "current context" "kubernetes") ∧
      Selection.server.read u.root = none := by
  intro document
  exact ⟨by decide, _, _, rfl, rfl, rfl, rfl⟩

end SharedConfig
