import SharedConfig.Proofs.Run.Pairing
import SharedConfig.Proofs.Shadow

/-!
# SharedConfig.Proofs.Run.Generations

How far the two generations of records agree along a run.

A server is always written with its context, and a context of a cluster with its server; both are
merged into what is stored, and if that was a context and its shadow, the result is one too
(`Aligned.step`).  So on a run for clusters every name has a context and the server that stands for
it.  A context of another target is written by itself, and a server of its name, if there is one,
stays as it is.

* `Step.items`: what a step does to the items of both collections.
* `generations_agree`: runs for clusters.
* `global_server_stands_for_context`: runs for global endpoints.
-/

namespace SharedConfig

open Node

namespace Mutation

/-- An operation on contexts for a target, on the servers of such contexts, or on selections. -/
def Connects (t : Target) : Mutation → Prop
  | setContext c _ => c.target = t
  | setServer s _ => (Context.ofServer s).target = t
  | removeContext _ | removeServer _ => True
  | setCurrentContext _ | removeCurrentContext _ => True
  | setCurrentServer _ | removeCurrentServer _ => True
  | _ => False

theorem Connects.isOperation {t : Target} {m : Mutation} (h : m.Connects t) : m.IsOperation := by
  cases m with
  | apply changes => exact h
  | _ => trivial

/-- Whether an operation sets the context of a name by itself, and not for a server. -/
def SetsContext (name : String) : Mutation → Prop
  | setContext c _ => c.name = name
  | _ => False

/-- A context that is written is set by itself, or it comes with a server and has no metadata. -/
theorem writtenContext_cases {m : Mutation} {c : Context} (h : m.writtenContext = some c) :
    (∃ current, m = .setContext c current) ∨ (c.HasBareMetadata ∧ m.writtenServer ≠ none) := by
  cases m with
  | setContext c' current =>
    cases h
    exact .inl ⟨current, rfl⟩
  | setServer s current =>
    cases h
    exact .inr ⟨List.forall_mem_nil _, Option.some_ne_none s⟩
  | _ => cases h

theorem writtenServer_eq_some {m : Mutation} {s : Server} (h : m.writtenServer = some s) :
    ∃ c, m.writtenContext = some c ∧ s = .ofContext c := by
  cases m with
  | setContext c current =>
    rw [writtenServer] at h
    split at h
    · cases h
      exact ⟨c, rfl, rfl⟩
    · cases h
  | setServer s' current =>
    cases h
    exact ⟨.ofServer s, rfl, s.ofContext_ofServer.symm⟩
  | _ => cases h

theorem Connects.target {t : Target} {m : Mutation} (h : m.Connects t) {c : Context}
    (hc : m.writtenContext = some c) : c.target = t := by
  cases m with
  | setContext c' current => cases hc; exact h
  | setServer s current => cases hc; exact h
  | _ => cases hc

/-- An operation on clusters that writes a context writes a server too. -/
theorem Connects.writes_both {m : Mutation} (h : m.Connects .kubernetes)
    (hbare : ∀ c current, m = .setContext c current → c.HasBareMetadata) {c : Context}
    (hc : m.writtenContext = some c) :
    c.target = .kubernetes ∧ c.HasBareMetadata ∧ m.writtenServer ≠ none := by
  have htarget : c.target = .kubernetes := h.target hc
  rcases writtenContext_cases hc with ⟨current, hset⟩ | hwritten
  · refine ⟨htarget, hbare c current hset, ?_⟩
    rw [hset, writtenServer, htarget]
    exact Option.some_ne_none _
  · exact ⟨htarget, hwritten⟩

end Mutation

/-! ## The items of both collections -/

/-- A record was put into the collection of its kind, reconciled with the stored one. -/
def Written (k : RecordKind) (r : k.Record) (table : StrategyTable) (a b : Node) : Prop :=
  ∃ tree item, k.encode r = .ok tree ∧
    item = (reconcile tree (k.entity? (k.recordName r) a) k.collection.dotted table).1 ∧
    item.entityName = some (k.recordName r) ∧
    k.items b = Entity.put (k.recordName r) item (k.items a)

theorem Upserted.written {k : RecordKind} {r : k.Record} {table : StrategyTable} {a b x y : Node}
    (h : Upserted k r table x y) (hx : x.collection k = a.collection k)
    (hy : b.collection k = y.collection k) : Written k r table a b := by
  obtain ⟨tree, hr, hname, hafter⟩ := h.put
  rw [RecordKind.entity?_of_collection hx] at hname hafter
  refine ⟨tree, _, hr, rfl, hname, ?_⟩
  rw [RecordKind.items, hy, hafter, hx]
  rfl

/-- What a step does to the items of the contexts and of the servers. -/
inductive ItemsStep (table : StrategyTable) (m : Mutation) (a b : Node) : Prop where
  | same : RecordKind.context.items b = RecordKind.context.items a →
      RecordKind.server.items b = RecordKind.server.items a → ItemsStep table m a b
  | context {c : Context} {current : Bool} : m = .setContext c current →
      m.writtenServer = none → Written .context c table a b →
      RecordKind.server.items b = RecordKind.server.items a → ItemsStep table m a b
  | both {c : Context} : m.writtenContext = some c → m.writtenServer = some (.ofContext c) →
      Written .context c table a b → Written .server (.ofContext c) table a b →
      ItemsStep table m a b
  | erased (name : String) :
      RecordKind.context.items b = Entity.erase name (RecordKind.context.items a) →
      RecordKind.server.items b = Entity.erase name (RecordKind.server.items a) →
      ItemsStep table m a b

section Steps

variable {table : StrategyTable} {m : Mutation} {a b : Node}

theorem ItemsStep.of_collections (hc : b.collection .context = a.collection .context)
    (hs : b.collection .server = a.collection .server) : ItemsStep table m a b :=
  .same (RecordKind.items_of_collection hc) (RecordKind.items_of_collection hs)

theorem Step.items (h : Step table m a b) : ItemsStep table m a b := by
  cases h with
  | options _ hu =>
    exact .of_collections (hu.collection (by decide)) (hu.collection (by decide))
  | select _ honly _ => exact .of_collections (honly.collection _) (honly.collection _)
  | unselect =>
    rename_i sel
    have honly := dropSelection_onlySelection sel a
    exact .of_collections (honly.collection _) (honly.collection _)
  | context hcluster hc =>
    refine .context rfl ?_ (hc.written rfl rfl)
      (RecordKind.items_of_collection (hc.frame.collection (by decide)))
    rw [Mutation.writtenServer, hcluster]
    rfl
  | cluster hcluster hc hserver =>
    refine .both rfl ?_ (hc.written rfl (hserver.frame.collection (by decide)))
      (hserver.written (hc.frame.collection (by decide)) rfl)
    rw [Mutation.writtenServer, hcluster]
    rfl
  | server hserver hc =>
    rename_i s current d
    have hs := hserver.written (a := a) rfl (hc.frame.collection (by decide))
    rw [← Server.ofContext_ofServer s] at hs
    refine .both rfl ?_ (hc.written (hserver.frame.collection (by decide)) rfl) hs
    rw [Server.ofContext_ofServer]
    rfl
  | removeContext _ =>
    exact .erased _ (RecordKind.items_of_erase (collection_dropContext (.inl rfl) _ a))
      (RecordKind.items_of_erase (collection_dropContext (.inr rfl) _ a))
  | removeServer _ =>
    exact .erased _ (RecordKind.items_of_erase (collection_dropServer (.inl rfl) _ a))
      (RecordKind.items_of_erase (collection_dropServer (.inr rfl) _ a))

/-! ## The names -/

def SameNames (root : Node) : Prop :=
  RecordKind.context.names root = RecordKind.server.names root

theorem SameNames.step (hs : Step table m a b)
    (hm : ∀ c, m.writtenContext = some c → m.writtenServer ≠ none) (h : SameNames a) :
    SameNames b := by
  simp only [SameNames, RecordKind.names_eq] at h ⊢
  cases hs.items with
  | same hcontexts hservers => rw [hcontexts, hservers, h]
  | context hset hnone _ _ =>
    subst hset
    exact absurd hnone (hm _ rfl)
  | both _ _ hc hserver =>
    obtain ⟨tree, n, -, -, hname, hcontexts⟩ := hc
    obtain ⟨tree', n', -, -, hname', hservers⟩ := hserver
    rw [hcontexts, hservers, Entity.names_put_eq hname, Entity.names_put_eq hname', h]
    rfl
  | erased name hcontexts hservers =>
    rw [hcontexts, hservers, Entity.names_erase, Entity.names_erase, h]

/-! ## The forms -/

structure AllHave (f g : Form) (root : Node) : Prop where
  contexts : ∀ n ∈ RecordKind.context.items root, f.Holds n
  servers : ∀ n ∈ RecordKind.server.items root, g.Holds n

theorem Written.holds {k : RecordKind} {r : k.Record} {f : Form} (h : Written k r .empty a b)
    (hr : ∀ tree, k.encode r = .ok tree → f.Holds tree) (ha : ∀ n ∈ k.items a, f.Holds n) :
    ∀ n ∈ k.items b, f.Holds n := by
  obtain ⟨tree, item, htree, rfl, -, hb⟩ := h
  intro n hn
  rw [hb] at hn
  rcases Entity.mem_put hn with rfl | hold
  · exact f.reconciled _ (hr tree htree) fun e he => ha e (RecordKind.mem_items_of_entity? he).1
  · exact ha n hold

theorem AllHave.step {f g : Form} (hs : Step .empty m a b)
    (hf : ∀ c, m.writtenContext = some c → ∀ tree, RecordKind.context.encode c = .ok tree →
      f.Holds tree)
    (hg : ∀ s, m.writtenServer = some s → g.Holds s.encode) (h : AllHave f g a) :
    AllHave f g b := by
  cases hs.items with
  | same hcontexts hservers => exact ⟨hcontexts ▸ h.contexts, hservers ▸ h.servers⟩
  | context hset _ hc hservers =>
    subst hset
    exact ⟨hc.holds (hf _ rfl) h.contexts, hservers ▸ h.servers⟩
  | both hcontext hwritten hc hserver =>
    refine ⟨hc.holds (hf _ hcontext) h.contexts, hserver.holds (fun tree htree => ?_) h.servers⟩
    cases htree
    exact hg _ hwritten
  | erased name hcontexts hservers =>
    refine ⟨fun n hn => h.contexts n ?_, fun n hn => h.servers n ?_⟩
    · rw [hcontexts] at hn
      exact (Entity.mem_erase.1 hn).1
    · rw [hservers] at hn
      exact (Entity.mem_erase.1 hn).1

/-! ## The records of a name -/

/-- Under a name there are a context for a target and its shadow, or neither a context nor a
server. -/
def Aligned (t : Target) (name : String) (root : Node) : Prop :=
  Option.Rel (Shadow t) (RecordKind.context.entity? name root) (RecordKind.server.entity? name root)

variable {t : Target} {name : String}

theorem Written.entity? {k : RecordKind} {r : k.Record} (h : Written k r table a b)
    (name : String) : ∃ tree, k.encode r = .ok tree ∧ k.entity? name b =
      if name = k.recordName r then
        some (reconcile tree (k.entity? name a) k.collection.dotted table).1
      else k.entity? name a := by
  obtain ⟨tree, item, htree, rfl, hname, hb⟩ := h
  refine ⟨tree, htree, ?_⟩
  rw [RecordKind.entity?_eq_find? k name b, hb, Entity.find?_put hname]
  split
  · rename_i hsame
    rw [hsame]
  · exact (RecordKind.entity?_eq_find? k name a).symm

theorem Aligned.of_written {c : Context} (h : Aligned t name a)
    (hc : Written .context c .empty a b) (hs : Written .server (.ofContext c) .empty a b)
    (hname : c.name = name → c.target = t ∧ c.HasBareMetadata) : Aligned t name b := by
  obtain ⟨tree, htree, hcontext⟩ := hc.entity? name
  obtain ⟨tree', htree', hserver⟩ := hs.entity? name
  cases htree'
  replace htree : c.encode = .ok tree := RecordKind.encode_context_eq_ok.1 htree
  have hcontextName : RecordKind.context.recordName c = c.name := rfl
  have hserverName : RecordKind.server.recordName (.ofContext c) = c.name := rfl
  rw [Aligned, hcontext, hserver, hcontextName, hserverName]
  by_cases hn : name = c.name
  · obtain ⟨rfl, hbare⟩ := hname hn.symm
    rw [if_pos hn, if_pos hn]
    exact .some ((Shadow.encode hbare htree).reconcile h _ _)
  · rw [if_neg hn, if_neg hn]
    exact h

theorem Aligned.step (hs : Step .empty m a b)
    (hm : ∀ c, m.writtenContext = some c → c.name = name →
      c.target = t ∧ c.HasBareMetadata ∧ m.writtenServer ≠ none)
    (h : Aligned t name a) : Aligned t name b := by
  cases hs.items with
  | same hcontexts hservers =>
    simp only [Aligned, RecordKind.entity?_eq_find?] at h ⊢
    rw [hcontexts, hservers]
    exact h
  | context hset hnone hc hservers =>
    -- what is written by itself is under another name
    subst hset
    obtain ⟨tree, -, hcontext⟩ := hc.entity? name
    rw [if_neg fun he => (hm _ rfl he.symm).2.2 hnone] at hcontext
    rw [Aligned, hcontext, RecordKind.entity?_eq_find? .server, hservers,
      ← RecordKind.entity?_eq_find?]
    exact h
  | both hwritten _ hc hserver =>
    exact h.of_written hc hserver fun hname =>
      ⟨(hm _ hwritten hname).1, (hm _ hwritten hname).2.1⟩
  | erased other hcontexts hservers =>
    simp only [Aligned, RecordKind.entity?_eq_find?] at h ⊢
    rw [hcontexts, hservers, Entity.find?_erase, Entity.find?_erase]
    split
    · exact .none
    · exact h

end Steps

/-- Under the name of a context there is the server that stands for it. -/
theorem Aligned.find {t : Target} {name : String} {root : Node} (h : Aligned t name root)
    (hname : name ∈ RecordKind.context.names root) :
    ∃ c, RecordKind.context.find name root = .ok c ∧
      RecordKind.server.find name root = .ok (.ofContext c) := by
  rw [← RecordKind.contains_iff, RecordKind.contains, Option.isSome_iff_exists] at hname
  obtain ⟨context, hcontext⟩ := hname
  rw [Aligned, hcontext] at h
  cases hserver : RecordKind.server.entity? name root with
  | none =>
    rw [hserver] at h
    cases h
  | some server =>
    rw [hserver] at h
    cases h with
    | some hshadow =>
      obtain ⟨c, hc, hs⟩ := hshadow.decode
      exact ⟨c, RecordKind.find_eq_ok_iff.2 ⟨context, hcontext, hc⟩,
        RecordKind.find_eq_ok_iff.2 ⟨server, hserver, hs⟩⟩

/-! ## Clusters -/

/-- The two generations of records agree: they have the same names in the same order, all of them
can be read, and the server of each name is the one that stands for its context. -/
structure GenerationsAgree (root : Node) : Prop where
  names : RecordKind.context.names root = RecordKind.server.names root
  contexts : ∀ n ∈ RecordKind.context.items root, ∃ c, RecordKind.context.decode n = .ok c
  servers : ∀ n ∈ RecordKind.server.items root, ∃ s, RecordKind.server.decode n = .ok s
  standsFor : ∀ name ∈ RecordKind.context.names root, ∃ c,
    RecordKind.context.find name root = .ok c ∧
      RecordKind.server.find name root = .ok (.ofContext c)

/-- On a run for clusters every context is written with its server, so the generations agree. -/
theorem generations_agree {ms : List (StrategyTable × Mutation)}
    (hms : ∀ m ∈ ms, m.1 = .empty ∧ m.2.Connects .kubernetes)
    (hbare : ∀ m ∈ ms, ∀ c current, m.2 = .setContext c current → c.HasBareMetadata) :
    GenerationsAgree (Mutation.nextAll ms (.mapping [])) := by
  have hops : ∀ m ∈ ms, m.2.IsOperation := fun m hm => (hms m hm).2.isOperation
  have hwritten : ∀ m ∈ ms, ∀ c, m.2.writtenContext = some c →
      c.target = .kubernetes ∧ c.HasBareMetadata ∧ m.2.writtenServer ≠ none :=
    fun m hm c hc => (hms m hm).2.writes_both (hbare m hm) hc
  have hnames : SameNames (Mutation.nextAll ms (.mapping [])) :=
    Mutation.nextAll_keeps hops
      (fun m hm _ _ hs h => h.step hs fun c hc => (hwritten m hm c hc).2.2) rfl
  have hforms : AllHave Context.form Server.form (Mutation.nextAll ms (.mapping [])) := by
    refine Mutation.nextAll_keeps hops (fun m hm a b hs h => ?_)
      ⟨List.forall_mem_nil _, List.forall_mem_nil _⟩
    rw [(hms m hm).1] at hs
    refine h.step hs (fun c hc tree htree => ?_) fun s _ => s.holds_encode
    exact Context.holds_encode (hwritten m hm c hc).2.1 (RecordKind.encode_context_eq_ok.1 htree)
  have haligned : ∀ name, Aligned .kubernetes name (Mutation.nextAll ms (.mapping [])) := by
    intro name
    refine Mutation.nextAll_keeps hops (fun m hm a b hs h => ?_) Option.Rel.none
    rw [(hms m hm).1] at hs
    exact h.step hs fun c hc _ => hwritten m hm c hc
  exact ⟨hnames, fun n hn => Context.reads.decode (hforms.contexts n hn),
    fun n hn => Server.reads.decode (hforms.servers n hn), fun name hname =>
    (haligned name).find hname⟩

/-- A cluster that is written through either generation, each time with fields of its own. -/
theorem generations_agree_after_both_writes :
    let operations : List (StrategyTable × Mutation) :=
      [(.empty, .setServer { Server.new "a" .managementCluster with
          managementClusterOpts := some ⟨"https://a", "", ""⟩
          discoverySources := [.image "d" "x"] } true),
        (.empty, .setContext { Context.new "a" .kubernetes with
          clusterOpts := some ⟨"", "/a", "", false⟩
          discoverySources := [.directory "e" "y", .image "d" "z"]
          additionalMetadata := [("m", .sequence [.bool true])] } false),
        (.empty, .setContext (.new "b" .kubernetes) true), (.empty, .removeServer "b")]
    (∀ m ∈ operations, m.1 = .empty ∧ m.2.Connects .kubernetes) ∧
      (∀ m ∈ operations, ∀ c current, m.2 = .setContext c current → c.HasBareMetadata) ∧
      RecordKind.context.names (Mutation.nextAll operations (.mapping [])) = ["a"] ∧
      GenerationsAgree (Mutation.nextAll operations (.mapping [])) := by
  intro operations
  have hoperations : ∀ m ∈ operations, m.1 = .empty ∧ m.2.Connects .kubernetes := by
    simp [operations, Mutation.Connects, Context.ofServer, Server.new, Context.new]
  have hbare : ∀ m ∈ operations, ∀ c current, m.2 = .setContext c current → c.HasBareMetadata := by
    rintro m hm c current hset e he
    simp only [operations, List.mem_cons, List.not_mem_nil, or_false] at hm
    rcases hm with rfl | rfl | rfl | rfl
    all_goals cases hset
    · rw [List.mem_singleton.1 he]
      rfl
    · cases he
  exact ⟨hoperations, hbare, by decide +kernel, generations_agree hoperations hbare⟩

/-! ## Global endpoints -/

/-- On a run for a target all contexts say that they are for it, and all servers that they are of
its type. -/
theorem Mutation.Connects.allHave {t : Target} {ms : List (StrategyTable × Mutation)}
    (hms : ∀ m ∈ ms, m.1 = .empty ∧ m.2.Connects t) :
    AllHave (.withText "target" t.name)
      (.withText "type" (Server.ofContext (.new "" t)).type.name)
      (Mutation.nextAll ms (.mapping [])) := by
  refine Mutation.nextAll_keeps (fun m hm => (hms m hm).2.isOperation) (fun m hm a b hs h => ?_)
    ⟨List.forall_mem_nil _, List.forall_mem_nil _⟩
  obtain ⟨htable, hconnects⟩ := hms m hm
  rw [htable] at hs
  refine h.step hs (fun c hc tree htree => ?_) fun s hserver => ?_
  · obtain rfl := hconnects.target hc
    obtain ⟨entries, rfl, -, htarget⟩ :=
      Context.encode_eq_mapping (RecordKind.encode_context_eq_ok.1 htree)
    exact ⟨RecordKind.distinctKeys_encode htree, entries, rfl, htarget⟩
  · obtain ⟨c, hc, rfl⟩ := Mutation.writtenServer_eq_some hserver
    obtain rfl := hconnects.target hc
    exact ⟨RecordKind.distinctKeys_encode (k := .server) rfl, _, rfl, rfl⟩

section Found

variable {root : Node} {name : String} {f g : Form}

theorem AllHave.target_of_find {t : Target} (h : AllHave (.withText "target" t.name) g root)
    {c : Context} (hfind : RecordKind.context.find name root = .ok c) :
    c.name = name ∧ c.target = t := by
  obtain ⟨n, hn, hc⟩ := RecordKind.find_eq_ok_iff.1 hfind
  obtain ⟨hmem, hname⟩ := RecordKind.mem_items_of_entity? hn
  obtain ⟨hd, m, rfl, htext⟩ := h.contexts n hmem
  have hpart := (Context.parts_of_decode rfl hd.keptByText hc).target
  rw [child?_of_asMapping rfl, htext] at hpart
  exact ⟨Context.name_eq_of_decode hd.keptByText hc hname, hpart.eq_of_read rfl t.read_name⟩

theorem AllHave.type_of_find {ty : ServerType} (h : AllHave f (.withText "type" ty.name) root)
    {s : Server} (hfind : RecordKind.server.find name root = .ok s) :
    s.name = name ∧ s.type = ty := by
  obtain ⟨n, hn, hs⟩ := RecordKind.find_eq_ok_iff.1 hfind
  obtain ⟨hmem, hname⟩ := RecordKind.mem_items_of_entity? hn
  obtain ⟨hd, m, rfl, htext⟩ := h.servers n hmem
  have hpart := (Server.parts_of_decode rfl hd.keptByText hs).type
  rw [child?_of_asMapping rfl, htext] at hpart
  exact ⟨Server.name_eq_of_decode hd.keptByText hs hname, hpart.eq_of_read rfl (ServerType.read_name ty)⟩

end Found

/-- A context that was written for servers only since there was none of its name is aligned with its
server. -/
theorem aligned_of_servers {t : Target} {before after : List (StrategyTable × Mutation)}
    (hms : ∀ m ∈ before ++ after, m.1 = .empty ∧ m.2.Connects t) {name : String}
    (habsent : RecordKind.context.contains name (Mutation.nextAll before (.mapping [])) = false)
    (hset : Mutation.Along (fun m _ => ¬ m.SetsContext name) after
      (Mutation.nextAll before (.mapping []))) :
    Aligned t name (Mutation.nextAll (before ++ after) (.mapping [])) := by
  obtain ⟨hbefore, hafter⟩ := List.forall_mem_append.1 hms
  -- without a context of the name there is no server of it either
  have hpaired : PairedApart (Mutation.nextAll before (.mapping [])) :=
    Mutation.nextAll_induction PairedApart.step (fun m hm => (hbefore m hm).2.isOperation)
      pairedApart_empty
  have hcontext : name ∉ RecordKind.context.names (Mutation.nextAll before (.mapping [])) := by
    rw [← RecordKind.contains_iff, habsent]
    exact Bool.false_ne_true
  have hserver : name ∉ RecordKind.server.names (Mutation.nextAll before (.mapping [])) :=
    fun hname => hcontext (hpaired.paired.servers name hname)
  rw [Mutation.nextAll_append]
  refine Mutation.nextAll_along (fun m hm a hQ ha => ?_) hset ?_
  · obtain ⟨htable, hconnects⟩ := hafter m hm
    refine Mutation.next_keeps hconnects.isOperation (fun hok x y hs hx => ?_) ha
    rw [htable] at hs
    refine hx.step hs fun c hc hname => ⟨hconnects.target hc, ?_⟩
    rcases Mutation.writtenContext_cases hc with ⟨current, he⟩ | hwritten
    · refine absurd ?_ (hQ hok)
      rw [he]
      exact hname
    · exact hwritten
  · rw [Aligned, RecordKind.entity?_eq_none_iff.2 hcontext,
      RecordKind.entity?_eq_none_iff.2 hserver]
    exact .none

/-- On a run for global endpoints a context and a server of one name have their name and type in
common, and the server stands for the context if that was written for servers only. -/
theorem global_server_stands_for_context {before after : List (StrategyTable × Mutation)}
    (hms : ∀ m ∈ before ++ after, m.1 = .empty ∧ m.2.Connects .missionControl) {name : String}
    {c : Context} {s : Server}
    (hc : RecordKind.context.find name (Mutation.nextAll (before ++ after) (.mapping [])) = .ok c)
    (hs : RecordKind.server.find name (Mutation.nextAll (before ++ after) (.mapping [])) = .ok s) :
    s.name = c.name ∧ s.type = (Server.ofContext c).type ∧
      (RecordKind.context.contains name (Mutation.nextAll before (.mapping [])) = false →
        Mutation.Along (fun m _ => ¬ m.SetsContext name) after
          (Mutation.nextAll before (.mapping [])) →
        s = .ofContext c) := by
  have hforms := Mutation.Connects.allHave hms
  obtain ⟨hcname, hctarget⟩ := hforms.target_of_find hc
  obtain ⟨hsname, hstype⟩ := hforms.type_of_find hs
  refine ⟨hsname.trans hcname.symm, ?_, fun habsent hset => ?_⟩
  · rw [hstype, Server.ofContext, Server.ofContext, hctarget]
    rfl
  · obtain ⟨c', hc', hs'⟩ :=
      (aligned_of_servers hms habsent hset).find (RecordKind.mem_names_of_find hc)
    cases hc.symm.trans hc'
    exact Except.ok.inj (hs.symm.trans hs')

/-- A context that is removed and comes back with a server, which is then set a second time. -/
theorem global_server_stands_for_context_again :
    let before : List (StrategyTable × Mutation) :=
      [(.empty, .setContext { Context.new "a" .missionControl with
          globalOpts := some ⟨"https://a", none⟩ } false), (.empty, .removeContext "a")]
    let after : List (StrategyTable × Mutation) :=
      [(.empty, .setServer { Server.new "a" .global with
          globalOpts := some ⟨"https://b", none⟩, discoverySources := [.image "d" "x"] } false),
        (.empty, .setContext (.new "b" .missionControl) true),
        (.empty, .setServer { Server.new "a" .global with
          globalOpts := some ⟨"https://c", none⟩ } true)]
    let document := Mutation.nextAll (before ++ after) (.mapping [])
    (∀ m ∈ before ++ after, m.1 = .empty ∧ m.2.Connects .missionControl) ∧
      ∃ c s, RecordKind.context.find "a" document = .ok c ∧
        RecordKind.server.find "a" document = .ok s ∧ s = .ofContext c := by
  intro before after document
  have hoperations : ∀ m ∈ before ++ after, m.1 = .empty ∧ m.2.Connects .missionControl := by
    simp [before, after, Mutation.Connects, Context.ofServer, Server.new, Context.new]
  have hset : Mutation.Along (fun m _ => ¬ m.SetsContext "a") after
      (Mutation.nextAll before (.mapping [])) := by
    refine Mutation.along_of_forall (fun m hm root => ?_) _
    revert m
    simp [after, Mutation.SetsContext, Context.new]
  obtain ⟨c, hc⟩ : ∃ c, RecordKind.context.find "a" document = .ok c := ⟨_, rfl⟩
  obtain ⟨s, hs⟩ : ∃ s, RecordKind.server.find "a" document = .ok s := ⟨_, rfl⟩
  exact ⟨hoperations, c, s, hc, hs,
    (global_server_stands_for_context hoperations hc hs).2.2 (by decide) hset⟩

/-- A context that is set by itself leaves the server of its name as it is. -/
theorem global_server_stays :
    let operations : List (StrategyTable × Mutation) :=
      [(.empty, .setServer { Server.new "a" .global with
          globalOpts := some ⟨"https://a", none⟩ } false),
        (.empty, .setContext { Context.new "a" .missionControl with
          globalOpts := some ⟨"https://b", none⟩ } false)]
    (∀ m ∈ operations, m.1 = .empty ∧ m.2.Connects .missionControl) ∧
      ∃ c s, RecordKind.context.find "a" (Mutation.nextAll operations (.mapping [])) = .ok c ∧
        RecordKind.server.find "a" (Mutation.nextAll operations (.mapping [])) = .ok s ∧
        s ≠ .ofContext c := by
  intro operations
  refine ⟨?_, _, _, rfl, rfl, by decide⟩
  simp [operations, Mutation.Connects, Context.ofServer, Server.new, Context.new]

end SharedConfig
