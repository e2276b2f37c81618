import SharedConfig.Proofs.Decoding.Parts
import SharedConfig.Proofs.Run

/-!
# SharedConfig.Proofs.Run.Pairing

The two generations of records stay paired along a run: every server has a context of its name, and
every context of a cluster has a server of its name.

What a stored context is for can change with an update, under any strategies.  The item that an
update writes has the name of the new context, and if it can be read at all it is for the target of
the new context (`Upserted.items`); so the server that comes with a context of a cluster is the one
that is needed, and without a cluster none is.

* `PairedApart.step`: one step.
* `paired_along_runs`: the law for every run.
-/

namespace SharedConfig

open Node

def contextItems (root : Node) : List Node := (root.collection .context).getD []

/-- Every server has a context of its name, and every context of a cluster has a server of its
name. -/
structure Paired (root : Node) : Prop where
  servers : ∀ name ∈ RecordKind.server.names root, name ∈ RecordKind.context.names root
  clusters : ∀ item ∈ contextItems root, ∀ c, RecordKind.context.decode item = .ok c →
    c.target = .kubernetes → ∃ name ∈ RecordKind.server.names root, item.entityName = some name

/-- No text stands twice among the keys of a context. -/
def DistinctItems (root : Node) : Prop := ∀ item ∈ contextItems root, item.DistinctKeys

theorem paired_empty : Paired (.mapping []) where
  servers name h := by cases h
  clusters item h := by cases h

section Steps

variable {a b : Node}

theorem contextItems_eq_of_collection (h : b.collection .context = a.collection .context) :
    contextItems b = contextItems a := by
  rw [contextItems, contextItems, h]

/-- What a new context is reconciled to is read as a context of its target or not at all. -/
theorem reconcile_context (table : StrategyTable) (path : String) {c : Context} {candidate : Node}
    (hr : RecordKind.context.encode c = .ok candidate) {existing : Option Node}
    (he : ∀ e, existing = some e → e.DistinctKeys) :
    (reconcile candidate existing path table).1.DistinctKeys ∧
      ∀ c', RecordKind.context.decode (reconcile candidate existing path table).1 = .ok c' →
        c'.target = c.target := by
  obtain ⟨m, rfl, hfields, htarget⟩ :=
    Context.encode_eq_mapping (RecordKind.encode_context_eq_ok.1 hr)
  have hnew := distinctKeys_reconcile table path (RecordKind.distinctKeys_encode hr) he
  obtain ⟨v, hv, hcore⟩ := child?_reconcile_scalar table path hfields.nodup htarget existing
  exact ⟨hnew, fun c' hc' => Context.target_eq_of_decode hnew.keptByText hc' hv hcore⟩

theorem distinctKeys_of_entity? (hd : DistinctItems a) {name : String} {e : Node}
    (he : RecordKind.context.entity? name a = some e) : e.DistinctKeys := by
  rw [RecordKind.entity?_eq] at he
  exact hd e (List.mem_of_find?_eq_some he)

/-- The items of the contexts after an update: the stored ones, and one that is read as a context of
the new target or not at all. -/
theorem Upserted.items {c : Context} {table : StrategyTable}
    (h : Upserted .context c table a b) (hd : DistinctItems a) {item : Node}
    (hitem : item ∈ contextItems b) :
    item ∈ contextItems a ∨ (item.entityName = some c.name ∧ item.DistinctKeys ∧
      ∀ c', RecordKind.context.decode item = .ok c' → c'.target = c.target) := by
  obtain ⟨candidate, hr, hname, hafter⟩ := h.put
  rw [contextItems, hafter] at hitem
  rcases Entity.mem_put hitem with rfl | hold
  · exact .inr ⟨hname, reconcile_context table _ hr fun e he => distinctKeys_of_entity? hd he⟩
  · exact .inl hold

theorem Upserted.target_of_find {c c' : Context} {table : StrategyTable}
    (h : Upserted .context c table a b) (hd : DistinctItems a)
    (hfind : RecordKind.context.find c.name b = .ok c') : c'.target = c.target := by
  obtain ⟨candidate, hr, hstored⟩ := h.entity?_self
  obtain ⟨n, hn, hdecode⟩ := RecordKind.find_eq_ok_iff.1 hfind
  obtain rfl := Option.some.inj (hstored.symm.trans hn)
  exact (reconcile_context table _ hr fun e he => distinctKeys_of_entity? hd he).2 c' hdecode

end Steps

/-- A paired document in which no key of a context stands twice. -/
structure PairedApart (root : Node) : Prop where
  paired : Paired root
  apart : DistinctItems root

namespace PairedApart

variable {a b : Node} {table : StrategyTable}

theorem of_collections (h : PairedApart a)
    (hc : b.collection .context = a.collection .context)
    (hs : b.collection .server = a.collection .server) : PairedApart b := by
  have hitems := contextItems_eq_of_collection hc
  have hcontexts : RecordKind.context.names b = RecordKind.context.names a := by
    rw [RecordKind.names, RecordKind.names, hc]
  have hservers : RecordKind.server.names b = RecordKind.server.names a := by
    rw [RecordKind.names, RecordKind.names, hs]
  refine ⟨⟨?_, ?_⟩, ?_⟩
  · rw [hservers, hcontexts]
    exact h.paired.servers
  · rw [hitems, hservers]
    exact h.paired.clusters
  · rw [DistinctItems, hitems]
    exact h.apart

/-- An update of a context by which all servers stay: if it is one of a cluster, there has to be one
of its name. -/
theorem of_context {c : Context} {x y d : Node} (h : PairedApart a)
    (hx : x.collection .context = a.collection .context) (hc : Upserted .context c table x y)
    (hy : d.collection .context = y.collection .context)
    (hkeep : ∀ name ∈ RecordKind.server.names a, name ∈ RecordKind.server.names d)
    (hnew : ∀ name ∈ RecordKind.server.names d, name ∈ RecordKind.server.names a ∨ name = c.name)
    (hcluster : c.target = .kubernetes → c.name ∈ RecordKind.server.names d) : PairedApart d := by
  have hdx : DistinctItems x := by
    rw [DistinctItems, contextItems_eq_of_collection hx]
    exact h.apart
  have hitems : ∀ item ∈ contextItems d, item ∈ contextItems a ∨
      (item.entityName = some c.name ∧ item.DistinctKeys ∧
        ∀ c', RecordKind.context.decode item = .ok c' → c'.target = c.target) := by
    intro item hitem
    rw [contextItems_eq_of_collection hy] at hitem
    rw [← contextItems_eq_of_collection hx]
    exact hc.items hdx hitem
  refine ⟨⟨fun name hname => ?_, fun item hitem c' hc' ht => ?_⟩, fun item hitem => ?_⟩
  · rw [RecordKind.names, hy, ← RecordKind.names, hc.mem_names_iff, RecordKind.names, hx]
    exact (hnew name hname).imp_left (h.paired.servers name)
  · rcases hitems item hitem with hold | ⟨hname, -, htarget⟩
    · obtain ⟨name, hname, hitemName⟩ := h.paired.clusters item hold c' hc' ht
      exact ⟨name, hkeep name hname, hitemName⟩
    · exact ⟨c.name, hcluster ((htarget c' hc').symm.trans ht), hname⟩
  · rcases hitems item hitem with hold | ⟨-, hdistinct, -⟩
    · exact h.apart item hold
    · exact hdistinct

theorem of_erase {name : String} (h : PairedApart a)
    (hc : b.collection .context = (a.collection .context).map (Entity.erase name))
    (hs : b.collection .server = (a.collection .server).map (Entity.erase name)) :
    PairedApart b := by
  have hitems : ∀ item, item ∈ contextItems b ↔
      item ∈ contextItems a ∧ item.entityName ≠ some name := by
    intro item
    rw [contextItems, contextItems, hc]
    cases a.collection .context with
    | none => simp
    | some items => exact Entity.mem_erase
  have hnames : ∀ k : RecordKind, b.collection k = (a.collection k).map (Entity.erase name) →
      ∀ other, other ∈ k.names b ↔ other ∈ k.names a ∧ other ≠ name := by
    intro k hk other
    rw [RecordKind.names, RecordKind.names, hk]
    cases a.collection k with
    | none => simp [Entity.names]
    | some items => simp [Entity.names_erase]
  refine ⟨⟨fun other hother => ?_, fun item hitem c' hc' ht => ?_⟩, fun item hitem => ?_⟩
  · obtain ⟨hold, hne⟩ := (hnames .server hs other).1 hother
    exact (hnames .context hc other).2 ⟨h.paired.servers other hold, hne⟩
  · obtain ⟨hold, hne⟩ := (hitems item).1 hitem
    obtain ⟨other, hother, hitemName⟩ := h.paired.clusters item hold c' hc' ht
    refine ⟨other, (hnames .server hs other).2 ⟨hother, fun he => ?_⟩, hitemName⟩
    exact hne (he ▸ hitemName)
  · exact h.apart item ((hitems item).1 hitem).1

theorem step {m : Mutation} (hs : Step table m a b) (h : PairedApart a) : PairedApart b := by
  cases hs with
  | options _ hu => exact h.of_collections (hu.collection (by decide)) (hu.collection (by decide))
  -- the servers stay, and the context is of no cluster
  | context hcluster hc =>
    have hservers := hc.frame.names (k := .server) (by decide)
    refine h.of_context rfl hc rfl (fun name hname => hservers ▸ hname)
      (fun name hname => .inl (hservers ▸ hname)) fun ht => ?_
    rw [ht] at hcluster
    cases hcluster
  | cluster _ hc hserver =>
    have hservers := hc.frame.names (k := .server) (by decide)
    refine h.of_context rfl hc (hserver.frame.collection (by decide)) (fun name hname => ?_)
      (fun name hname => ?_) fun _ => hserver.mem_names_iff.2 (.inr rfl)
    · exact hserver.mem_names_iff.2 (.inl (hservers ▸ hname))
    · exact hservers ▸ hserver.mem_names_iff.1 hname
  -- whatever the context was or becomes, its server is there
  | server hserver hc =>
    have hservers := hc.frame.names (k := .server) (by decide)
    refine h.of_context (hserver.frame.collection (by decide)) hc rfl (fun name hname => ?_)
      (fun name hname => ?_) fun _ => ?_
    · exact hservers ▸ hserver.mem_names_iff.2 (.inl hname)
    · exact hserver.mem_names_iff.1 (hservers ▸ hname)
    · exact hservers ▸ hserver.mem_names_iff.2 (.inr rfl)
  | removeContext _ =>
    exact h.of_erase (collection_dropContext (.inl rfl) _ a) (collection_dropContext (.inr rfl) _ a)
  | removeServer _ =>
    exact h.of_erase (collection_dropServer (.inl rfl) _ a) (collection_dropServer (.inr rfl) _ a)
  | select _ honly _ => exact h.of_collections (honly.collection _) (honly.collection _)
  | unselect =>
    rename_i sel
    have honly := dropSelection_onlySelection sel a
    exact h.of_collections (honly.collection _) (honly.collection _)

end PairedApart

theorem pairedApart_empty : PairedApart (.mapping []) := ⟨paired_empty, fun _ h => nomatch h⟩

/-- The empty document is paired, and every run from a paired document ends in one. -/
theorem paired_along_runs {ms : List (StrategyTable × Mutation)}
    (hms : ∀ m ∈ ms, m.2.IsOperation) {root : Node} (h : Paired root) (hd : DistinctItems root) :
    Paired (.mapping []) ∧ Paired (Mutation.nextAll ms root) :=
  ⟨paired_empty, (Mutation.nextAll_induction PairedApart.step hms ⟨h, hd⟩).paired⟩

/-- A context of a cluster becomes one of another target and then one of a cluster again. -/
theorem paired_after_retargeting :
    let document : Node := .mapping [
      (.string "contexts", .sequence
        [.mapping [(.string "name", .string "a"), (.string "target", .string "kubernetes")]]),
      (.string "servers", .sequence [.mapping [(.string "name", .string "a")]])]
    let operations : List (StrategyTable × Mutation) :=
      [(.empty, .setContext (.new "a" .tanzu) true), (.empty, .setServer (.new "b" .global) false),
        (.empty, .setContext (.new "a" .kubernetes) false)]
    (∀ m ∈ operations, m.2.IsOperation) ∧ Paired document ∧ DistinctItems document ∧
      Paired (Mutation.nextAll operations document) := by
  intro document operations
  have hoperations : ∀ m ∈ operations, m.2.IsOperation := by
    simp [operations, Mutation.IsOperation]
  have hpaired : Paired document := by
    constructor
    · decide
    · intro item hitem c _ _
      obtain rfl := List.mem_singleton.1 hitem
      exact ⟨"a", by decide, by decide⟩
  have hdistinct : DistinctItems document := by
    intro item hitem m hm
    obtain rfl := List.mem_singleton.1 hitem
    cases hm
    decide
  exact ⟨hoperations, hpaired, hdistinct, (paired_along_runs hoperations hpaired hdistinct).2⟩

end SharedConfig
