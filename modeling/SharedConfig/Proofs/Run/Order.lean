import SharedConfig.Proofs.Action
import SharedConfig.Proofs.Collection.Others
import SharedConfig.Proofs.Edit.Order
import SharedConfig.Proofs.Selection
import SharedConfig.Store.Options

/-!
# SharedConfig.Proofs.Run.Order

Records put into a document one after the other, in any order.

Whether a record can be put there does not depend on the others (`upsertAll_succeeds_iff`), and what
then stands under each name depends on the document before all of them (`upsertAll_allUpserted`), so
the order shows only in where new entities and new mappings stand.  Where every entity is there
already, nothing is new, and two updates come to the same document in either order (`upsert_swap`).

* `upserts_commute`: the law for lists of records with names of their own.
-/

namespace SharedConfig

open Node

structure AnyRecord where
  kind : RecordKind
  record : kind.Record

namespace AnyRecord

def name (r : AnyRecord) : String := r.kind.recordName r.record

def key (r : AnyRecord) : RecordKind × String := (r.kind, r.name)

/-- A record can be put into a document: it has a tree and a name, and its collection is there or
can be made. -/
structure Writable (r : AnyRecord) (root : Node) : Prop where
  tree : ∃ tree, r.kind.encode r.record = .ok tree
  named : r.name ≠ ""
  reached : root.reaches r.kind.collection = true

def Present (r : AnyRecord) (root : Node) : Prop := r.kind.contains r.name root = true

end AnyRecord

def Action.upsertAll : List AnyRecord → Action Unit
  | [] => pure ()
  | r :: rest => do
    let _ ← upsert r.kind r.record
    upsertAll rest

/-- Keys that lead neither into a collection nor to a node above one. -/
def OutsideCollections (keys : List String) : Prop :=
  ∀ k : RecordKind, ¬ k.collectionNames <+: keys ∧ ¬ keys <+: k.collectionNames

theorem RecordKind.collection_beside (k k' : RecordKind) : k.collection.Beside k'.collection := by
  cases k <;> cases k' <;> decide

/-! ## One update -/

section Update

open SharedConfig.Action

variable {k k' : RecordKind} {r : k.Record} {s u : Session} {table : StrategyTable} {path : String}
  {tree : Node}

theorem kind_upsertInto (x : Node) : (upsertInto table path tree x).1.kind = x.kind := by
  unfold upsertInto
  cases hi : x.asSequence with
  | none => rfl
  | some items =>
    dsimp only
    split
    · rfl
    · rw [kind_setCore, kind_eq_sequence_iff.2 ⟨items, hi⟩]
      rfl

theorem upsert_succeeds_iff {r : AnyRecord} :
    (∃ changed u, Action.upsert r.kind r.record s = (.ok changed, u)) ↔ r.Writable s.root := by
  constructor
  · rintro ⟨changed, u, h⟩
    obtain ⟨tree, root, htree, hedit, -⟩ := exists_edit_of_upsert h
    refine ⟨⟨tree, htree⟩, (upsert_eq_ok h).named, ?_⟩
    rw [← isSome_editAt, hedit]
    rfl
  · rintro ⟨⟨tree, htree⟩, hnamed, hreached⟩
    rw [← isSome_editAt (upsertInto s.strategies r.kind.collection.dotted tree),
      Option.isSome_iff_exists] at hreached
    obtain ⟨answer, hanswer⟩ := hreached
    obtain ⟨root, hedit⟩ : ∃ root, s.root.editAt true
        (upsertInto s.strategies r.kind.collection.dotted tree) r.kind.collection =
        (root, some answer) := ⟨_, Prod.ext rfl hanswer⟩
    obtain ⟨x, -, hx, hfound⟩ := editAt_some hedit
    obtain ⟨items, hi, -⟩ := exists_asSequence_of_found hfound
    rw [upsertInto_eq hi (RecordKind.entityName_of_encode htree hnamed)] at hx
    subst hx
    exact ⟨_, _, upsert_of_edit htree hedit⟩

theorem writable_iff_of_upsert {changed : Bool} (h : Action.upsert k r s = (.ok changed, u))
    (other : AnyRecord) : other.Writable u.root ↔ other.Writable s.root := by
  obtain ⟨tree, root, -, hedit, rfl⟩ := exists_edit_of_upsert h
  have hreaches : (s.root.editAt true (upsertInto s.strategies k.collection.dotted tree)
      k.collection).1.reaches other.kind.collection = s.root.reaches other.kind.collection :=
    reaches_editAt kind_upsertInto (other.kind.collection_beside k) s.root
  rw [hedit] at hreaches
  constructor
  · rintro ⟨htree, hnamed, hreached⟩
    exact ⟨htree, hnamed, hreaches.symm.trans hreached⟩
  · rintro ⟨htree, hnamed, hreached⟩
    exact ⟨htree, hnamed, hreaches.trans hreached⟩

/-- An update leaves alone what is outside all collections, and every entity but its own. -/
theorem at?_of_upsert {changed : Bool} (h : Action.upsert k r s = (.ok changed, u))
    {keys : List String} (hkeys : OutsideCollections keys) : u.root.at? keys = s.root.at? keys := by
  obtain ⟨tree, root, -, hedit, rfl⟩ := exists_edit_of_upsert h
  have hnames : k.collection.names = k.collectionNames := KeyPath.names_of _ _
  have hat : (s.root.editAt true (upsertInto s.strategies k.collection.dotted tree)
      k.collection).1.at? keys = s.root.at? keys :=
    at?_editAt_apart (hnames ▸ (hkeys k).1) (hnames ▸ (hkeys k).2) s.root
  rw [hedit] at hat
  exact hat

theorem entity?_of_upsert {changed : Bool} (h : Action.upsert k r s = (.ok changed, u))
    {name : String} (hkey : (k', name) ≠ (k, k.recordName r)) :
    k'.entity? name u.root = k'.entity? name s.root := by
  by_cases hk : k' = k
  · subst hk
    exact (upsert_eq_ok h).entity?_of_ne fun hname => hkey (by rw [hname])
  · exact RecordKind.entity?_of_collection ((upsert_onlyEntity h).collection k' hk) name

theorem present_of_upsert {changed : Bool} (h : Action.upsert k r s = (.ok changed, u))
    {other : AnyRecord} (hother : other.Present s.root) : other.Present u.root := by
  by_cases hk : other.kind = k
  · subst hk
    exact RecordKind.contains_iff.2
      ((upsert_eq_ok h).mem_names_iff.2 (.inl (RecordKind.contains_iff.1 hother)))
  · have hcollection := (upsert_onlyEntity h).collection _ hk
    rw [AnyRecord.Present, RecordKind.contains_of_collection hcollection]
    exact hother

end Update

/-! ## Two updates -/

section Swap

open SharedConfig.Action

variable {k k' : RecordKind} {r : k.Record} {r' : k'.Record} {s u v : Session}
  {table : StrategyTable} {root tree tree' : Node}

theorem RecordKind.collection_injective (h : k.collection = k'.collection) : k = k' := by
  cases k <;> cases k' <;> first | rfl | exact absurd h (by decide)

theorem Session.edited_swap (s : Session) (a b root : Node) (changed changed' : Bool) :
    (s.edited a changed).edited root changed' = (s.edited b changed').edited root changed := by
  simp only [Session.edited, Bool.or_right_comm]

/-- Two entities are merged into one sequence in either order, if the first one is there. -/
theorem upsertInto_swap {path name other : String} {x : Node} {items : List Node}
    (hi : x.asSequence = some items) (hne : name ≠ other)
    (htree : tree.DistinctKeys) (hname : tree.entityName = some name)
    (htree' : tree'.DistinctKeys) (hother : tree'.entityName = some other)
    (hstored : name ∈ Entity.names items) :
    upsertInto table path tree' (upsertInto table path tree x).1 =
      ((upsertInto table path tree (upsertInto table path tree' x).1).1,
        (upsertInto table path tree' x).2) := by
  have hn := entityName_reconcile table path htree hname items
  have ho := entityName_reconcile table path htree' hother items
  rw [upsertInto_eq hi hname, upsertInto_eq hi hother]
  dsimp only
  rw [upsertInto_eq (asSequence_setCore x _) hother, upsertInto_eq (asSequence_setCore x _) hname,
    Entity.find?_put hn, if_neg hne.symm, Entity.find?_put ho, if_neg hne]
  simp only [setCore_setCore, setCore_sequence]
  rw [Entity.put_comm hne hn ho hstored]

theorem exists_items_of_contains {name : String} (h : k.contains name root = true) :
    ∃ x items, root.locate k.collection = some x ∧ x.asSequence = some items ∧
      name ∈ Entity.names items := by
  obtain ⟨n, hn⟩ := Option.isSome_iff_exists.1 h
  obtain ⟨items, hitems, hfind⟩ := RecordKind.entity?_eq_some_iff.1 hn
  obtain ⟨x, hx, hi⟩ := collection_eq_some_iff.1 hitems
  refine ⟨x, items, hx, hi, Entity.find?_isSome_iff.1 ?_⟩
  rw [hfind]
  rfl

/-- Two entities that are there are merged into a document in either order. -/
theorem editAt_upsertInto_swap (table : StrategyTable) (htree : k.encode r = .ok tree)
    (hnamed : k.recordName r ≠ "")
    (htree' : k'.encode r' = .ok tree') (hnamed' : k'.recordName r' ≠ "")
    (hkey : (k, k.recordName r) ≠ (k', k'.recordName r'))
    (hr : k.contains (k.recordName r) root = true)
    (hr' : k'.contains (k'.recordName r') root = true) :
    (root.editAt true (upsertInto table k.collection.dotted tree) k.collection).1.editAt true
        (upsertInto table k'.collection.dotted tree') k'.collection =
      (((root.editAt true (upsertInto table k'.collection.dotted tree') k'.collection).1.editAt true
          (upsertInto table k.collection.dotted tree) k.collection).1,
        (root.editAt true (upsertInto table k'.collection.dotted tree') k'.collection).2) := by
  obtain ⟨x, items, hx, hi, hstored⟩ := exists_items_of_contains hr
  obtain ⟨y, -, hy, -, -⟩ := exists_items_of_contains hr'
  refine editAt_swap kind_upsertInto kind_upsertInto (k.collection_beside k') hx hy fun hsame => ?_
  obtain rfl := RecordKind.collection_injective hsame
  have hne : k.recordName r ≠ k.recordName r' := fun he => hkey (by rw [he])
  exact upsertInto_swap hi hne (RecordKind.distinctKeys_encode htree)
    (RecordKind.entityName_of_encode htree hnamed) (RecordKind.distinctKeys_encode htree')
    (RecordKind.entityName_of_encode htree' hnamed') hstored

theorem upsert_swap {changed changed' : Bool} (hu : Action.upsert k r s = (.ok changed, u))
    (hv : Action.upsert k' r' u = (.ok changed', v))
    (hkey : (k, k.recordName r) ≠ (k', k'.recordName r'))
    (hr : k.contains (k.recordName r) s.root = true)
    (hr' : k'.contains (k'.recordName r') s.root = true) :
    ∃ w, Action.upsert k' r' s = (.ok changed', w) ∧ Action.upsert k r w = (.ok changed, v) := by
  have hnamed := (upsert_eq_ok hu).named
  have hnamed' := (upsert_eq_ok hv).named
  obtain ⟨tree, a, htree, ha, rfl⟩ := exists_edit_of_upsert hu
  obtain ⟨tree', b, htree', hb, rfl⟩ := exists_edit_of_upsert hv
  have hab := editAt_upsertInto_swap s.strategies htree hnamed htree' hnamed' hkey hr hr'
  have hba := editAt_upsertInto_swap s.strategies htree' hnamed' htree hnamed hkey.symm hr' hr
  obtain ⟨c, answer, hc⟩ : ∃ c answer, s.root.editAt true
      (upsertInto s.strategies k'.collection.dotted tree') k'.collection = (c, answer) := ⟨_, _, rfl⟩
  replace hb : a.editAt true (upsertInto s.strategies k'.collection.dotted tree') k'.collection =
    (b, some (.ok changed')) := hb
  rw [ha, hc] at hab hba
  rw [hb] at hab hba
  obtain ⟨-, rfl⟩ := Prod.mk.inj hab
  refine ⟨s.edited c changed', upsert_of_edit htree' hc, ?_⟩
  rw [upsert_of_edit (s := s.edited c changed') htree hba, Session.edited_swap]

end Swap

/-! ## Lists of updates -/

/-- What a list of updates leaves: each entity of the list is reconciled with what the document had
under its name before all of them, and everything else is as it was. -/
structure AllUpserted (table : StrategyTable) (rs : List AnyRecord) (before after : Node) : Prop where
  stored : ∀ r ∈ rs, ∃ tree, r.kind.encode r.record = .ok tree ∧
    r.kind.entity? r.name after = some
      (reconcile tree (r.kind.entity? r.name before) r.kind.collection.dotted table).1
  others : ∀ (k : RecordKind) (name : String), (k, name) ∉ rs.map AnyRecord.key →
    k.entity? name after = k.entity? name before
  outside : ∀ keys, OutsideCollections keys → after.at? keys = before.at? keys

section Lists

open SharedConfig.Action

variable {rs rs' : List AnyRecord} {s u : Session}

theorem upsertAll_cons_eq_ok {r : AnyRecord} :
    upsertAll (r :: rs) s = (.ok (), u) ↔
      ∃ changed v, Action.upsert r.kind r.record s = (.ok changed, v) ∧
        upsertAll rs v = (.ok (), u) :=
  bind_eq_ok

theorem upsertAll_succeeds_iff :
    (∃ u, upsertAll rs s = (.ok (), u)) ↔ ∀ r ∈ rs, r.Writable s.root := by
  induction rs generalizing s with
  | nil => simp [upsertAll, pure_apply]
  | cons r rest ih =>
    simp only [upsertAll_cons_eq_ok, List.forall_mem_cons]
    constructor
    · rintro ⟨u, changed, v, hr, hrest⟩
      refine ⟨upsert_succeeds_iff.1 ⟨changed, v, hr⟩, fun other hother => ?_⟩
      exact (writable_iff_of_upsert hr other).1 (ih.1 ⟨u, hrest⟩ other hother)
    · rintro ⟨hr, hrest⟩
      obtain ⟨changed, v, hr⟩ := upsert_succeeds_iff.2 hr
      obtain ⟨u, hu⟩ := ih.2 fun other hother =>
        (writable_iff_of_upsert hr other).2 (hrest other hother)
      exact ⟨u, changed, v, hr, hu⟩

theorem upsertAll_allUpserted (hkeys : (rs.map AnyRecord.key).Nodup)
    (h : upsertAll rs s = (.ok (), u)) : AllUpserted s.strategies rs s.root u.root := by
  induction rs generalizing s with
  | nil =>
    obtain ⟨-, rfl⟩ := pure_eq_ok.1 h
    exact ⟨fun _ hr => (nomatch hr), fun _ _ _ => rfl, fun _ _ => rfl⟩
  | cons r rest ih =>
    obtain ⟨changed, v, hr, hrest⟩ := upsertAll_cons_eq_ok.1 h
    rw [List.map_cons, List.nodup_cons] at hkeys
    have hstrategies := upsert_strategies r.record s
    rw [hr] at hstrategies
    have hafter := ih hkeys.2 hrest
    rw [hstrategies] at hafter
    refine ⟨List.forall_mem_cons.2 ⟨?_, fun other hother => ?_⟩, fun k name hkey => ?_,
      fun keys hkeys => (hafter.outside keys hkeys).trans (at?_of_upsert hr hkeys)⟩
    · obtain ⟨tree, htree, hstored⟩ := (upsert_eq_ok hr).entity?_self
      exact ⟨tree, htree, (hafter.others _ _ hkeys.1).trans hstored⟩
    · obtain ⟨tree, htree, hstored⟩ := hafter.stored other hother
      have hne : other.key ≠ r.key := fun he => hkeys.1 (he ▸ List.mem_map_of_mem hother)
      rw [entity?_of_upsert hr hne] at hstored
      exact ⟨tree, htree, hstored⟩
    · rw [List.map_cons, List.mem_cons, not_or] at hkey
      exact (hafter.others k name hkey.2).trans (entity?_of_upsert hr hkey.1)

theorem upsertAll_of_perm (hperm : rs.Perm rs') (hkeys : (rs.map AnyRecord.key).Nodup)
    (hpresent : ∀ r ∈ rs, r.Present s.root) (h : upsertAll rs s = (.ok (), u)) :
    upsertAll rs' s = (.ok (), u) := by
  induction hperm generalizing s with
  | nil => exact h
  | cons r _ ih =>
    obtain ⟨changed, v, hr, hrest⟩ := upsertAll_cons_eq_ok.1 h
    rw [List.map_cons, List.nodup_cons] at hkeys
    refine upsertAll_cons_eq_ok.2 ⟨changed, v, hr, ih hkeys.2 (fun other hother => ?_) hrest⟩
    exact present_of_upsert hr (hpresent other (List.mem_cons_of_mem r hother))
  | swap r r' rest =>
    -- two entities that are not there yet would come last in the order of their updates
    obtain ⟨changed', v, hr', h⟩ := upsertAll_cons_eq_ok.1 h
    obtain ⟨changed, w, hr, hrest⟩ := upsertAll_cons_eq_ok.1 h
    simp only [List.map_cons, List.nodup_cons, List.mem_cons, not_or] at hkeys
    obtain ⟨hpresent', hpresent⟩ := List.forall_mem_cons.1 hpresent
    obtain ⟨t, ht, ht'⟩ := upsert_swap hr' hr hkeys.1.1 hpresent' (hpresent r List.mem_cons_self)
    exact upsertAll_cons_eq_ok.2 ⟨changed, t, ht, upsertAll_cons_eq_ok.2 ⟨changed', w, ht', hrest⟩⟩
  | trans hperm _ ih ih' =>
    refine ih' ((hperm.map AnyRecord.key).nodup_iff.1 hkeys) (fun r hr => ?_) (ih hkeys hpresent h)
    exact hpresent r (hperm.mem_iff.2 hr)

end Lists

/-! ## Reads -/

/-- Two documents that answer all reads of records, selections, features and variables alike. -/
structure SameReads (a b : Node) : Prop where
  entity : ∀ (k : RecordKind) (name : String), k.entity? name a = k.entity? name b
  find : ∀ (k : RecordKind) (name : String), k.find name a = k.find name b
  contains : ∀ (k : RecordKind) (name : String), k.contains name a = k.contains name b
  names : ∀ (k : RecordKind) (name : String), name ∈ k.names a ↔ name ∈ k.names b
  selection : ∀ sel : Selection, sel.read a = sel.read b
  targets : ∀ name, targetsSelecting name a = targetsSelecting name b
  currentContext : ∀ t, currentContext t a = currentContext t b
  currentContexts : currentContexts a = currentContexts b
  currentServer : currentServer a = currentServer b
  feature : ∀ plugin key, isFeatureEnabled plugin key a = isFeatureEnabled plugin key b
  env : ∀ key, envValue key a = envValue key b
  environment : envVariables a = envVariables b

section Reads

variable {a b : Node} {keys : List String}

theorem OutsideCollections.append (h : OutsideCollections keys) (more : List String) :
    OutsideCollections (keys ++ more) := by
  intro k
  refine ⟨fun hprefix => ?_, fun hprefix => (h k).2 ((List.prefix_append keys more).trans hprefix)⟩
  rcases List.prefix_or_prefix_of_prefix hprefix (List.prefix_append keys more) with hk | hk
  · exact (h k).1 hk
  · exact (h k).2 hk

theorem outside_selection (sel : Selection) : OutsideCollections (sel.above ++ [sel.leaf]) := by
  cases sel with
  | context t =>
    have habove : OutsideCollections ["currentContext"] := fun k => by cases k <;> decide
    exact habove.append [t.name]
  | server => exact fun k => by cases k <;> decide

theorem outside_features : OutsideCollections ["clientOptions", "features"] :=
  fun k => by cases k <;> decide

theorem outside_env : OutsideCollections ["clientOptions", "env"] :=
  fun k => by cases k <;> decide

theorem getScalar_of_outside (hne : keys ≠ []) (hat : a.at? keys = b.at? keys) :
    a.getScalar (KeyPath.of keys .scalar) = b.getScalar (KeyPath.of keys .scalar) := by
  rw [getScalar_of hne, hat, getScalar_of hne]

theorem currentContextsOf_congr (h : ∀ t, currentContext t a = currentContext t b)
    (ts : List Target) : currentContextsOf a ts = currentContextsOf b ts := by
  induction ts with
  | nil => rfl
  | cons t rest ih => rw [currentContextsOf, currentContextsOf, h t, ih]

theorem envVariables_eq (root : Node) :
    envVariables root = (((root.at? ["clientOptions", "env"]).bind asMapping).map fun m =>
      Dictionary.ofList (m.filterMap fun (k, v) => v.asText.map fun s => (k.text, s))).getD [] := by
  rw [← locate_of_bind (List.cons_ne_nil _ _) fun _ h => asMapping_eq_none h, envVariables]
  cases root.locate (KeyPath.of ["clientOptions", "env"] .mapping) with
  | none => rfl
  | some n =>
    dsimp only [Option.bind_some]
    cases n.asMapping <;> rfl

/-- All reads are answered from the entities by name and from what is outside all collections. -/
theorem sameReads_of_entities
    (hentity : ∀ (k : RecordKind) (name : String), k.entity? name a = k.entity? name b)
    (houtside : ∀ keys, OutsideCollections keys → a.at? keys = b.at? keys) : SameReads a b := by
  have hfind : ∀ (k : RecordKind) (name : String), k.find name a = k.find name b :=
    fun k name => RecordKind.find_congr (hentity k name)
  have hcontains : ∀ (k : RecordKind) (name : String), k.contains name a = k.contains name b :=
    fun k name => congrArg Option.isSome (hentity k name)
  have hselection : ∀ sel : Selection, sel.read a = sel.read b := fun sel => by
    rw [Selection.read_eq, houtside _ (outside_selection sel), Selection.read_eq]
  have hselected : ∀ t, a.getScalar (currentContextPath t) = b.getScalar (currentContextPath t) :=
    fun t => hselection (.context t)
  have hcontext : ∀ t, currentContext t a = currentContext t b := fun t => by
    simp only [currentContext, hselected, hfind]
  have hserver : a.getScalar currentServerPath = b.getScalar currentServerPath := hselection .server
  have hfeature : ∀ plugin key, a.getScalar (featurePath plugin key) =
      b.getScalar (featurePath plugin key) := fun plugin key =>
    getScalar_of_outside (List.cons_ne_nil _ _) (houtside _ (outside_features.append [plugin, key]))
  have henv : ∀ key, a.getScalar (envPath key) = b.getScalar (envPath key) := fun key =>
    getScalar_of_outside (List.cons_ne_nil _ _) (houtside _ (outside_env.append [key]))
  exact {
    entity := hentity
    find := hfind
    contains := hcontains
    names := fun k name => by rw [← RecordKind.contains_iff, hcontains, RecordKind.contains_iff]
    selection := hselection
    targets := fun name => List.filter_congr fun t _ => by rw [hselected]
    currentContext := hcontext
    currentContexts := currentContextsOf_congr hcontext _
    currentServer := by simp only [currentServer, hserver, hcontains, hfind]
    feature := fun plugin key => by simp only [isFeatureEnabled, hfeature]
    env := fun key => by simp only [envValue, henv]
    environment := by rw [envVariables_eq, houtside _ outside_env, envVariables_eq] }

/-- What a list of updates leaves does not depend on the order of the list. -/
theorem AllUpserted.sameReads {table : StrategyTable} {rs rs' : List AnyRecord} {before : Node}
    (h : AllUpserted table rs before a) (h' : AllUpserted table rs' before b)
    (hperm : rs.Perm rs') : SameReads a b := by
  refine sameReads_of_entities (fun k name => ?_) fun keys hkeys =>
    (h.outside keys hkeys).trans (h'.outside keys hkeys).symm
  by_cases hkey : (k, name) ∈ rs.map AnyRecord.key
  · obtain ⟨r, hr, heq⟩ := List.mem_map.1 hkey
    cases heq
    obtain ⟨tree, htree, hstored⟩ := h.stored r hr
    obtain ⟨tree', htree', hstored'⟩ := h'.stored r (hperm.mem_iff.1 hr)
    rw [htree] at htree'
    cases htree'
    exact hstored.trans hstored'.symm
  · have hkey' : (k, name) ∉ rs'.map AnyRecord.key := fun hmem =>
      hkey ((hperm.map AnyRecord.key).mem_iff.2 hmem)
    exact (h.others k name hkey).trans (h'.others k name hkey').symm

end Reads

/-! ## The law -/

/-- Records with names of their own that can be put into a document in one order can be put there in
every order.  Each of them is there then, reconciled with what was stored under its name, and all
reads are answered alike; where all of them were there before, the documents are the same. -/
theorem upserts_commute {rs rs' : List AnyRecord} {s u : Session} (hperm : rs.Perm rs')
    (hkeys : (rs.map AnyRecord.key).Nodup) (h : Action.upsertAll rs s = (.ok (), u)) :
    ∃ u', Action.upsertAll rs' s = (.ok (), u') ∧ SameReads u.root u'.root ∧
      AllUpserted s.strategies rs s.root u.root ∧ AllUpserted s.strategies rs' s.root u'.root ∧
      ((∀ r ∈ rs, r.Present s.root) → u'.root = u.root) := by
  have hwritable := upsertAll_succeeds_iff.1 ⟨u, h⟩
  obtain ⟨u', h'⟩ := upsertAll_succeeds_iff.2 fun r hr => hwritable r (hperm.mem_iff.2 hr)
  have hall := upsertAll_allUpserted hkeys h
  have hall' := upsertAll_allUpserted ((hperm.map AnyRecord.key).nodup_iff.1 hkeys) h'
  refine ⟨u', h', hall.sameReads hall' hperm, hall, hall', fun hpresent => ?_⟩
  have hsame := upsertAll_of_perm hperm hkeys hpresent h
  rw [h'] at hsame
  cases hsame
  rfl

/-- A context beside a stored one, and two records whose collections are made: put in the other way
around, the two collections stand in the other order.  Written again with other contents, in either
order, they come to one document. -/
theorem upserts_commute_with_new :
    let records (version : String) : List AnyRecord :=
      [⟨.context, .new "a" .kubernetes⟩, ⟨.essential, ⟨"e", some version, none⟩⟩,
        ⟨.pluginGroup, ⟨"g", some version, none, []⟩⟩]
    let document : Node := .mapping [(.string "contexts", .sequence
      [.mapping [(.string "name", .string "b")]]), (.string "clientOptions", .scalar .null)]
    ∃ u u' v v', Action.upsertAll (records "1") (.new document .empty) = (.ok (), u) ∧
      Action.upsertAll (records "1").reverse (.new document .empty) = (.ok (), u') ∧
      SameReads u.root u'.root ∧ u'.root ≠ u.root ∧
      Action.upsertAll (records "2") u = (.ok (), v) ∧
      Action.upsertAll (records "2").reverse u = (.ok (), v') ∧
      v'.root = v.root ∧ v.root ≠ u.root := by
  intro records document
  have hkeys : ∀ version, ((records version).map AnyRecord.key).Nodup := fun version => by
    simp [records, AnyRecord.key]
  obtain ⟨u, u', v, hu, hu', hv, hnew, hagain, hpresent⟩ : ∃ u u' v,
      Action.upsertAll (records "1") (.new document .empty) = (.ok (), u) ∧
      Action.upsertAll (records "1").reverse (.new document .empty) = (.ok (), u') ∧
      Action.upsertAll (records "2") u = (.ok (), v) ∧ u'.root ≠ u.root ∧ v.root ≠ u.root ∧
      ∀ r ∈ records "2", r.kind.contains r.name u.root = true :=
    ⟨_, _, _, rfl, rfl, rfl, by decide, by decide, by decide⟩
  obtain ⟨w, hw, hreads, -⟩ := upserts_commute (List.reverse_perm _).symm (hkeys "1") hu
  rw [hu'] at hw
  cases hw
  obtain ⟨v', hv', -, -, -, hsame⟩ := upserts_commute (List.reverse_perm _).symm (hkeys "2") hv
  exact ⟨u, u', v, v', hu, hu', hreads, hnew, hv, hv', hsame hpresent, hagain⟩

end SharedConfig
