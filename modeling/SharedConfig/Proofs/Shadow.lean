import SharedConfig.Proofs.Decoding.Parts
import SharedConfig.Proofs.Form.Records

/-!
# SharedConfig.Proofs.Shadow

The tree of a context and the tree of its server, side by side.

The server is a shadow of the context if the fields that both have are the same trees in both
(`Shadow`).  A context and its server are encoded as such a pair, and merging one pair into another
gives one, since below a key that both have the two merges do the same.  From such a pair a context
and its server are read, although the two trees need not have their keys in one order, and each may
have keys that the other has not.

* `Shadow.encode`: what is encoded.
* `Shadow.reconcile`: what is merged.
* `Shadow.decode`: what is read.
-/

namespace SharedConfig

open Node Yaml

/-! ## What is under a key after a merge -/

theorem reconcile_path (p q : String) (candidate : Node) (existing : Option Node) :
    reconcile candidate existing p .empty = reconcile candidate existing q .empty := by
  cases existing with
  | none => rfl
  | some e => exact mergeNode_path p q candidate e

/-- The tree under a key after a merge that replaces nothing. -/
def mergedChild : Option Node → Option Node → Option Node
  | none, old => old
  | some new, old => some (reconcile new old "" .empty).1

section Merged

variable {fields : List (String × Form)} {required : List String} {key : String}

theorem Form.child?_merged {candidate existing : Node}
    (hc : (record fields required).Holds candidate) (he : (record fields required).Holds existing)
    (path key : String) :
    (mergeNode .empty path candidate existing).1.child? key =
      mergedChild (candidate.child? key) (existing.child? key) := by
  obtain ⟨hd, m, rfl, -⟩ := hc
  obtain ⟨-, old, rfl, -⟩ := he
  rw [mergeNode_mapping (StrategyTable.select_empty path) rfl, child?_setCore,
    get?_mergeEntries (hd m rfl)]
  unfold child? mergedChild
  dsimp only [asMapping]
  cases Mapping.get? m key with
  | none => rfl
  | some v =>
    dsimp only
    rw [reconcile_path]

end Merged

/-! ## Clusters -/

/-- The cluster of a context and the cluster of its server. -/
structure SameCluster (c s : Node) : Prop where
  contextForm : ClusterServer.form.Holds c
  serverForm : ManagementClusterServer.form.Holds s
  same : ∀ key ∈ ["endpoint", "path", "context"], c.child? key = s.child? key

theorem SameCluster.merged {c s c' s' : Node} (h : SameCluster c s) (h' : SameCluster c' s')
    (p q : String) :
    SameCluster (mergeNode .empty p c c').1 (mergeNode .empty q s s').1 where
  contextForm := Form.merged _ p c c' h.contextForm h'.contextForm
  serverForm := Form.merged _ q s s' h.serverForm h'.serverForm
  same key hkey := by
    rw [Form.child?_merged h.contextForm h'.contextForm,
      Form.child?_merged h.serverForm h'.serverForm,
      h.same key hkey, h'.same key hkey]

theorem SameCluster.mergedChild {c s c' s' : Option Node} (h : Option.Rel SameCluster c s)
    (h' : Option.Rel SameCluster c' s') :
    Option.Rel SameCluster (mergedChild c c') (mergedChild s s') := by
  cases h with
  | none => exact h'
  | some h =>
    cases h' with
    | none => exact .some h
    | some h' => exact .some (h.merged h' "" "")

theorem SameCluster.encode (c : ClusterServer) : SameCluster c.encode c.toManagement.encode where
  contextForm := c.holds_encode
  serverForm := c.toManagement.holds_encode
  same key hkey := by
    have hne : "isManagementCluster" ≠ key := by
      rintro rfl
      exact absurd hkey (by decide)
    simp only [child?, asMapping, ClusterServer.encode, ManagementClusterServer.encode,
      ClusterServer.toManagement, Mapping.get?_append, get?_field, if_neg hne, Option.or_none]

theorem SameCluster.decode {c s : Node} (h : SameCluster c s) :
    ∃ r, c.decode ClusterServer.read = .ok r ∧
      s.decode ManagementClusterServer.read = .ok r.toManagement := by
  obtain ⟨r, hr⟩ := ClusterServer.reads.decode h.contextForm
  obtain ⟨x, hx⟩ := ManagementClusterServer.reads.decode h.serverForm
  obtain ⟨hcd, mc, rfl, -⟩ := h.contextForm
  obtain ⟨hsd, ms, rfl, -⟩ := h.serverForm
  have hc := ClusterServer.parts_of_decode rfl hcd.keptByText hr
  have hs := ManagementClusterServer.parts_of_decode rfl hsd.keptByText hx
  have hendpoint := h.same "endpoint" (by decide)
  have hpath := h.same "path" (by decide)
  have hcontext := h.same "context" (by decide)
  refine ⟨r, hr, ?_⟩
  rw [hx]
  congr 1
  obtain ⟨endpoint, path, context⟩ := x
  rw [ClusterServer.toManagement, ManagementClusterServer.mk.injEq]
  exact ⟨hs.endpoint.unique (hendpoint ▸ hc.endpoint), hs.path.unique (hpath ▸ hc.path),
    hs.context.unique (hcontext ▸ hc.context)⟩

theorem PartIs.eq_some {σ : Type} {read : Value → Decoding σ} {f : Form} {n : Node} {o : Option σ}
    {x : σ} (h : PartIs (readOption read) none (some n) o) (hf : Reads f read) (hn : f.Holds n)
    (hx : n.decode read = .ok x) : o = some x := by
  obtain ⟨v, hv, hne, -⟩ := hf n hn
  obtain ⟨w, hw, hread⟩ := decode_eq_ok hx
  cases hv.symm.trans hw
  exact h.eq_of_read hv (readOption_eq_ok hne hread)

/-- The cluster of a context as it was read, and that of its server. -/
theorem SameCluster.part {c s : Option Node} (h : Option.Rel SameCluster c s)
    {x : Option ClusterServer} {y : Option ManagementClusterServer}
    (hx : PartIs (readOption ClusterServer.read) none c x)
    (hy : PartIs (readOption ManagementClusterServer.read) none s y) :
    y = x.map ClusterServer.toManagement := by
  cases h with
  | none =>
    rw [hx, hy]
    rfl
  | some h =>
    obtain ⟨r, hr, hs⟩ := h.decode
    rw [hx.eq_some ClusterServer.reads h.contextForm hr,
      hy.eq_some ManagementClusterServer.reads h.serverForm hs]
    rfl

/-! ## Contexts and servers -/

/-- The trees of a context for a target and of its server. -/
structure Shadow (t : Target) (context server : Node) : Prop where
  contextForm : Context.form.Holds context
  serverForm : Server.form.Holds server
  target : context.child? "target" = some (.string t.name)
  type : server.child? "type" = some (.string (Server.ofContext (.new "" t)).type.name)
  same : ∀ key ∈ ["name", "globalOpts", "discoverySources"], context.child? key = server.child? key
  cluster : Option.Rel SameCluster (context.child? "clusterOpts")
    (server.child? "managementClusterOpts")

theorem Shadow.merged {t : Target} {c s c' s' : Node} (h : Shadow t c s) (h' : Shadow t c' s')
    (p q : String) : Shadow t (mergeNode .empty p c c').1 (mergeNode .empty q s s').1 where
  contextForm := Form.merged _ p c c' h.contextForm h'.contextForm
  serverForm := Form.merged _ q s s' h.serverForm h'.serverForm
  target := by
    rw [Form.child?_merged h.contextForm h'.contextForm, h.target, h'.target, mergedChild]
    exact congrArg some (mergeNode_scalar _ _)
  type := by
    rw [Form.child?_merged h.serverForm h'.serverForm, h.type, h'.type, mergedChild]
    exact congrArg some (mergeNode_scalar _ _)
  same key hkey := by
    rw [Form.child?_merged h.contextForm h'.contextForm,
      Form.child?_merged h.serverForm h'.serverForm,
      h.same key hkey, h'.same key hkey]
  cluster := by
    rw [Form.child?_merged h.contextForm h'.contextForm,
      Form.child?_merged h.serverForm h'.serverForm]
    exact SameCluster.mergedChild h.cluster h'.cluster

theorem Shadow.reconcile {t : Target} {c s : Node} {c' s' : Option Node} (h : Shadow t c s)
    (h' : Option.Rel (Shadow t) c' s') (p q : String) :
    Shadow t (reconcile c c' p .empty).1 (reconcile s s' q .empty).1 := by
  cases h' with
  | none => exact h
  | some h' => exact h.merged h' p q

theorem Shadow.encode {c : Context} (hc : c.HasBareMetadata) {tree : Node}
    (h : c.encode = .ok tree) : Shadow c.target tree (Server.ofContext c).encode := by
  have hcontext := Context.holds_encode hc h
  unfold Context.encode at h
  cases hm : Context.metadataFields c.additionalMetadata with
  | error kind => rw [hm] at h; cases h
  | ok metadata =>
    rw [hm] at h
    cases h
    have hmetadata : ∀ key ∈ ["globalOpts", "discoverySources", "clusterOpts"],
        metadata.get? key = none := by
      intro key hkey
      refine get?_metadataFields_of_ne hm ?_
      rintro rfl
      exact absurd hkey (by decide)
    refine ⟨hcontext, (Server.ofContext c).holds_encode, rfl, rfl, fun key hkey => ?_, ?_⟩
    · simp only [List.mem_cons, List.not_mem_nil, or_false] at hkey
      rcases hkey with rfl | rfl | rfl
      all_goals
        simp [child?, asMapping, Server.encode, Server.ofContext, Mapping.get?_append, get?_field,
          get?_optionField, get?_listField_of_ne, hmetadata]
    · cases hcluster : c.clusterOpts
      all_goals
        simp [child?, asMapping, Server.encode, Server.ofContext, Mapping.get?_append, get?_field,
          get?_optionField, get?_listField_of_ne, hmetadata, hcluster, SameCluster.encode]

/-- From a context and its shadow are read a context and the server that stands for it. -/
theorem Shadow.decode {t : Target} {context server : Node} (h : Shadow t context server) :
    ∃ c, RecordKind.context.decode context = .ok c ∧
      RecordKind.server.decode server = .ok (.ofContext c) := by
  obtain ⟨c, hc⟩ := Context.reads.decode h.contextForm
  obtain ⟨s, hs⟩ := Server.reads.decode h.serverForm
  refine ⟨c, hc, ?_⟩
  replace hs : RecordKind.server.decode server = .ok s := hs
  rw [hs]
  congr 1
  obtain ⟨hcd, mc, rfl, -⟩ := h.contextForm
  obtain ⟨hsd, ms, rfl, -⟩ := h.serverForm
  have hpc := Context.parts_of_decode rfl hcd.keptByText hc
  have hps := Server.parts_of_decode rfl hsd.keptByText hs
  have htarget : c.target = t :=
    (h.target ▸ hpc.target).eq_of_read rfl t.read_name
  have htype : s.type = (Server.ofContext (.new "" t)).type :=
    (h.type ▸ hps.type).eq_of_read rfl (ServerType.read_name _)
  have hname := h.same "name" (by decide)
  have hglobal := h.same "globalOpts" (by decide)
  have hsources := h.same "discoverySources" (by decide)
  obtain ⟨name, type, globalOpts, cluster, sources⟩ := s
  rw [Server.ofContext, Server.mk.injEq]
  exact ⟨hps.name.unique (hname ▸ hpc.name), htarget ▸ htype,
    hps.globalOpts.unique (hglobal ▸ hpc.globalOpts),
    SameCluster.part h.cluster hpc.clusterOpts hps.managementClusterOpts,
    hps.discoverySources.unique (hsources ▸ hpc.discoverySources)⟩

end SharedConfig
