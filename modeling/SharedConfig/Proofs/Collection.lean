import SharedConfig.Proofs.Encoding
import SharedConfig.Proofs.Entries
import SharedConfig.Proofs.Merge
import SharedConfig.Store.Session

/-!
# SharedConfig.Proofs.Collection

The collections of a document, and the two actions on them.  Both are edits under the first key of
the path of the collection (`RecordKind.topKey`), so all other entries of the document stay.

* `upsert_eq_ok`: an update that succeeds puts the record, reconciled with the stored one of its
  name, into its collection.
* `Upserted.names`, `Upserted.entity?_self`: the names after an update, and what is under that of
  the record.
* `remove_apply`: a removal always succeeds, and drops the entities of the name.
* `removeNamed_eq`: the removal of a context or a server as one pass over the document.
-/

namespace SharedConfig

open Node

namespace RecordKind

/-- The key of the document that the collection of a kind is under. -/
def topKey : RecordKind → String
  | context => "contexts"
  | server => "servers"
  | _ => "clientOptions"

theorem collectionNames_eq (k : RecordKind) :
    ∃ rest, k.collectionNames = k.topKey :: rest := by
  cases k <;> exact ⟨_, rfl⟩

theorem collectionNames_ne_nil (k : RecordKind) : k.collectionNames ≠ [] := by
  cases k <;> simp [collectionNames]

theorem kind_of_getLast?_collection {k : RecordKind} {s : PathStep}
    (h : k.collection.getLast? = some s) : s.kind = .sequence := by
  cases k <;> cases h <;> rfl

theorem collection_eq (k : RecordKind) : ∃ s rest, k.collection = s :: rest ∧ s.name = k.topKey := by
  cases k <;> exact ⟨_, _, rfl, rfl⟩

def items (k : RecordKind) (root : Node) : List Node := (root.collection k).getD []

def names (k : RecordKind) (root : Node) : List String :=
  Entity.names ((root.collection k).getD [])

theorem names_eq (k : RecordKind) (root : Node) : k.names root = Entity.names (k.items root) := rfl

end RecordKind

section

variable {k : RecordKind} {root : Node}

theorem Node.collection_eq_at? (k : RecordKind) (root : Node) :
    root.collection k = (root.at? k.collectionNames).bind asSequence := by
  rw [← locate_of_bind k.collectionNames_ne_nil fun _ h => asSequence_eq_none h]
  unfold collection RecordKind.collection
  cases root.locate (KeyPath.of k.collectionNames .sequence) <;> rfl

theorem Node.OnlyUnder.collection {key : String} {after : Node} (h : OnlyUnder key root after)
    (hk : k.topKey ≠ key) : after.collection k = root.collection k := by
  obtain ⟨rest, hrest⟩ := k.collectionNames_eq
  rw [collection_eq_at?, collection_eq_at?, hrest, h.at? hk]

theorem Node.OnlyUnder.names {key : String} {after : Node} (h : OnlyUnder key root after)
    (hk : k.topKey ≠ key) : k.names after = k.names root := by
  rw [RecordKind.names, RecordKind.names, h.collection hk]

theorem RecordKind.contains_iff {name : String} :
    k.contains name root = true ↔ name ∈ k.names root := by
  unfold contains entity? RecordKind.names
  cases root.collection k with
  | none => simp [Entity.names]
  | some items => exact Entity.find?_isSome_iff

theorem Node.OnlyUnder.contains {key : String} {after : Node} (h : OnlyUnder key root after)
    (hk : k.topKey ≠ key) (name : String) : k.contains name after = k.contains name root := by
  rw [Bool.eq_iff_iff, RecordKind.contains_iff, RecordKind.contains_iff, h.names hk]

theorem RecordKind.mem_names_of_find {name : String} {r : k.Record}
    (h : k.find name root = .ok r) : name ∈ k.names root := by
  rw [← contains_iff, contains]
  unfold find at h
  cases he : k.entity? name root with
  | none => rw [he] at h; cases h
  | some n => rfl

theorem Node.collection_eq_some_iff {items : List Node} :
    root.collection k = some items ↔
      ∃ x, root.locate k.collection = some x ∧ x.asSequence = some items := by
  unfold Node.collection
  cases root.locate k.collection <;> simp

theorem RecordKind.entity?_eq (k : RecordKind) (name : String) (root : Node) :
    k.entity? name root = Entity.find? name ((root.collection k).getD []) := by
  unfold entity?
  cases root.collection k <;> rfl

theorem RecordKind.entity?_eq_find? (k : RecordKind) (name : String) (root : Node) :
    k.entity? name root = Entity.find? name (k.items root) := entity?_eq k name root

theorem RecordKind.mem_items_of_entity? {name : String} {n : Node}
    (h : k.entity? name root = some n) : n ∈ k.items root ∧ n.entityName = some name := by
  rw [entity?_eq_find?] at h
  exact ⟨List.mem_of_find?_eq_some h, Entity.entityName_of_find? h⟩

theorem RecordKind.exists_of_mem_items {n : Node} (h : n ∈ k.items root) :
    ∃ x ns, root.at? k.collectionNames = some x ∧ x.asSequence = some ns ∧ n ∈ ns := by
  rw [items, Node.collection_eq_at?] at h
  cases hx : root.at? k.collectionNames with
  | none =>
    rw [hx] at h
    cases h
  | some x =>
    rw [hx, Option.bind_some] at h
    cases hns : x.asSequence with
    | none =>
      rw [hns] at h
      cases h
    | some ns =>
      rw [hns] at h
      exact ⟨x, ns, rfl, hns, h⟩

theorem RecordKind.items_of_collection {other : Node} (h : other.collection k = root.collection k) :
    k.items other = k.items root := by
  rw [items, h, items]

theorem RecordKind.items_of_erase {name : String} {after : Node}
    (h : after.collection k = (root.collection k).map (Entity.erase name)) :
    k.items after = Entity.erase name (k.items root) := by
  rw [items, items, h]
  cases root.collection k <;> rfl

theorem RecordKind.entity?_eq_some_iff {name : String} {n : Node} :
    k.entity? name root = some n ↔
      ∃ items, root.collection k = some items ∧ Entity.find? name items = some n := by
  unfold entity?
  cases root.collection k <;> simp

theorem RecordKind.entity?_eq_none_iff {name : String} :
    k.entity? name root = none ↔ name ∉ k.names root := by
  rw [entity?_eq, names, Entity.find?_eq_none_iff]

theorem RecordKind.entity?_of_collection {other : Node} (h : other.collection k = root.collection k)
    (name : String) : k.entity? name other = k.entity? name root := by
  rw [entity?, h, entity?]

theorem RecordKind.entity?_of_erase {name : String} {after : Node}
    (h : after.collection k = (root.collection k).map (Entity.erase name)) (other : String) :
    k.entity? other after = if other = name then none else k.entity? other root := by
  rw [entity?_eq, entity?_eq, h]
  cases root.collection k with
  | none => simp [Entity.find?]
  | some items => exact Entity.find?_erase items other

theorem RecordKind.find_eq_ok_iff {name : String} {r : k.Record} :
    k.find name root = .ok r ↔ ∃ n, k.entity? name root = some n ∧ k.decode n = .ok r := by
  unfold find
  cases k.entity? name root with
  | none => simp
  | some n => cases hd : k.decode n <;> simp [hd]

theorem RecordKind.find_congr {other : Node} {name : String}
    (h : k.entity? name other = k.entity? name root) : k.find name other = k.find name root := by
  rw [find, h, find]

theorem RecordKind.find_of_collection {other : Node} (h : other.collection k = root.collection k)
    (name : String) : k.find name other = k.find name root :=
  find_congr (entity?_of_collection h name)

theorem RecordKind.contains_of_collection {other : Node}
    (h : other.collection k = root.collection k) (name : String) :
    k.contains name other = k.contains name root := by
  rw [contains, entity?_of_collection h, contains]

/-! ## Update -/

/-- An update that succeeds: the record is put under its name, reconciled with what is stored. -/
structure Upserted (k : RecordKind) (r : k.Record) (table : StrategyTable) (before after : Node) :
    Prop where
  frame : OnlyUnder k.topKey before after
  named : k.recordName r ≠ ""
  collection : ∃ candidate, k.encode r = .ok candidate ∧
    after.collection k = some (Entity.put (k.recordName r)
      (reconcile candidate (Entity.find? (k.recordName r) ((before.collection k).getD []))
        k.collection.dotted table).1 ((before.collection k).getD []))

/-- What an edit that makes absent nodes finds: the stored items, or none. -/
theorem exists_asSequence_of_found {create : Bool} {x : Node}
    (h : root.locate k.collection = some x ∨ create = true ∧ root.locate k.collection = none ∧
      ∃ s, k.collection.getLast? = some s ∧ x = .empty s.kind) :
    ∃ items, x.asSequence = some items ∧ (root.collection k).getD [] = items := by
  rcases h with hl | ⟨-, hl, s, hs, rfl⟩
  · have hkind : x.kind = .sequence := (locate_of_eq_some_iff k.collectionNames_ne_nil).1 hl |>.2
    obtain ⟨items, hi⟩ := kind_eq_sequence_iff.1 hkind
    exact ⟨items, hi, by simp [Node.collection, hl, hi]⟩
  · rw [RecordKind.kind_of_getLast?_collection hs]
    exact ⟨[], rfl, by simp [Node.collection, hl]⟩

theorem upsertInto_eq {table : StrategyTable} {path name : String} {candidate x : Node}
    {items : List Node} (hi : x.asSequence = some items)
    (hname : candidate.entityName = some name) :
    upsertInto table path candidate x =
      (x.setCore (.sequence
          (Entity.put name (reconcile candidate (Entity.find? name items) path table).1 items)),
        .ok (reconcile candidate (Entity.find? name items) path table).2) := by
  simp only [upsertInto, hi, upsertEntity_eq hname]

theorem upsertInto_eq_ok {table : StrategyTable} {path : String} {r : k.Record}
    {candidate x : Node} {items : List Node} {changed : Bool} (hr : k.encode r = .ok candidate)
    (hi : x.asSequence = some items)
    (h : (upsertInto table path candidate x).2 = .ok changed) :
    k.recordName r ≠ "" ∧ (upsertInto table path candidate x).1.asSequence =
      some (Entity.put (k.recordName r)
        (reconcile candidate (Entity.find? (k.recordName r) items) path table).1 items) := by
  have hname := RecordKind.entityName_encode hr
  split at hname
  · rename_i hempty
    simp [upsertInto, hi, upsertEntity_of_none hname] at h
  · rename_i hne
    refine ⟨hne, ?_⟩
    rw [upsertInto_eq hi hname, asSequence_setCore]
    rfl

/-- An update that succeeds has encoded its record, and edited the collection with its tree. -/
theorem Action.exists_edit_of_upsert {r : k.Record} {s s' : Session} {changed : Bool}
    (h : Action.upsert k r s = (.ok changed, s')) :
    ∃ candidate root, k.encode r = .ok candidate ∧
      s.root.editAt true (upsertInto s.strategies k.collection.dotted candidate) k.collection =
        (root, some (.ok changed)) ∧
      s' = s.edited root changed := by
  unfold Action.upsert at h
  cases hr : k.encode r with
  | error e => rw [hr] at h; cases h
  | ok candidate =>
    rw [hr] at h
    dsimp only at h
    split at h
    · cases h
    · cases h
    · rename_i root b hedit
      cases h
      exact ⟨candidate, root, rfl, hedit, rfl⟩

theorem Action.upsert_of_edit {r : k.Record} {s : Session} {candidate after : Node} {changed : Bool}
    (hr : k.encode r = .ok candidate)
    (hedit : s.root.editAt true (upsertInto s.strategies k.collection.dotted candidate) k.collection =
      (after, some (.ok changed))) :
    Action.upsert k r s = (.ok changed, s.edited after changed) := by
  rw [Action.upsert, hr]
  dsimp only
  rw [hedit]

theorem Action.upsert_eq_ok {r : k.Record} {s s' : Session} {changed : Bool}
    (h : Action.upsert k r s = (.ok changed, s')) : Upserted k r s.strategies s.root s'.root := by
  obtain ⟨candidate, root, hr, he, rfl⟩ := exists_edit_of_upsert h
  obtain ⟨x, hx, hbx, hfound⟩ := editAt_some he
  obtain ⟨items, hi, hold⟩ := exists_asSequence_of_found hfound
  obtain ⟨hnamed, hitems⟩ := upsertInto_eq_ok hr hi hbx.symm
  refine ⟨?_, hnamed, candidate, hr, ?_⟩
  · obtain ⟨step, rest, hpath, hstep⟩ := k.collection_eq
    have hframe := editAt_onlyUnder true
      (upsertInto s.strategies k.collection.dotted candidate) step rest s.root
    rw [← hpath, he, hstep] at hframe
    exact hframe
  · rw [collection_eq_at?, hold, ← hitems]
    rw [RecordKind.collection, KeyPath.names_of] at hx
    exact hx ▸ rfl

theorem Action.upsert_strategies (r : k.Record) (s : Session) :
    (Action.upsert k r s).2.strategies = s.strategies := by
  unfold Action.upsert
  split
  · rfl
  · dsimp only
    split <;> rfl

/-- The entity that an update puts under the name of the record. -/
theorem Upserted.put {r : k.Record} {table : StrategyTable} {after : Node}
    (h : Upserted k r table root after) :
    ∃ candidate, k.encode r = .ok candidate ∧
      (reconcile candidate (k.entity? (k.recordName r) root) k.collection.dotted table).1.entityName =
        some (k.recordName r) ∧
      after.collection k = some (Entity.put (k.recordName r)
        (reconcile candidate (k.entity? (k.recordName r) root) k.collection.dotted table).1
        ((root.collection k).getD [])) := by
  obtain ⟨candidate, hr, hafter⟩ := h.collection
  have hname := RecordKind.entityName_of_encode hr h.named
  rw [RecordKind.entity?_eq]
  exact ⟨candidate, hr, entityName_reconcile table _ (RecordKind.distinctKeys_encode hr) hname _,
    hafter⟩

theorem Upserted.entity?_self {r : k.Record} {table : StrategyTable} {after : Node}
    (h : Upserted k r table root after) :
    ∃ candidate, k.encode r = .ok candidate ∧ k.entity? (k.recordName r) after =
      some (reconcile candidate (k.entity? (k.recordName r) root) k.collection.dotted table).1 := by
  obtain ⟨candidate, hr, hname, hafter⟩ := h.put
  refine ⟨candidate, hr, ?_⟩
  rw [RecordKind.entity?_eq k _ after, hafter, Option.getD_some, Entity.find?_put_self hname]

theorem Upserted.entity?_of_ne {r : k.Record} {table : StrategyTable} {after : Node}
    (h : Upserted k r table root after) {name : String} (hne : name ≠ k.recordName r) :
    k.entity? name after = k.entity? name root := by
  obtain ⟨candidate, -, hname, hafter⟩ := h.put
  rw [RecordKind.entity?_eq, RecordKind.entity?_eq, hafter, Option.getD_some,
    Entity.find?_put hname, if_neg hne]

theorem Upserted.names {r : k.Record} {table : StrategyTable} {after : Node}
    (h : Upserted k r table root after) :
    k.names after =
      if k.recordName r ∈ k.names root then k.names root
      else k.names root ++ [k.recordName r] := by
  obtain ⟨candidate, -, hname, hafter⟩ := h.put
  rw [RecordKind.names, hafter, Option.getD_some]
  exact Entity.names_put_eq hname _

theorem Upserted.mem_names_iff {r : k.Record} {table : StrategyTable} {after : Node}
    (h : Upserted k r table root after) {name : String} :
    name ∈ k.names after ↔ name ∈ k.names root ∨ name = k.recordName r := by
  rw [h.names]
  split
  · rename_i hmem
    exact ⟨.inl, fun hname => hname.elim id fun he => he ▸ hmem⟩
  · simp

/-! ## Removal -/

/-- A document without the entities of a name in one collection. -/
def Node.removeNamed (k : RecordKind) (name : String) (root : Node) : Node :=
  (root.editAt false (removeFrom name) k.collection).1

theorem removeNamed_onlyUnder (k : RecordKind) (name : String) (root : Node) :
    OnlyUnder k.topKey root (root.removeNamed k name) := by
  obtain ⟨step, rest, hpath, hstep⟩ := k.collection_eq
  rw [removeNamed, hpath, ← hstep]
  exact editAt_onlyUnder false _ step rest root

def Node.eraseItems (name : String) (n : Node) : Node :=
  match n.asSequence with
  | some items => n.setCore (.sequence (Entity.erase name items))
  | none => n

theorem asSequence_eraseItems (name : String) (n : Node) :
    (n.eraseItems name).asSequence = n.asSequence.map (Entity.erase name) := by
  unfold eraseItems
  cases hs : n.asSequence with
  | none => simp [hs]
  | some items => simp [asSequence]

theorem removeFrom_eq (name : String) (n : Node) :
    removeFrom name n =
      (n.eraseItems name, decide (name ∈ Entity.names (n.asSequence.getD []))) := by
  unfold removeFrom eraseItems
  cases n.asSequence with
  | none => simp [Entity.names]
  | some items =>
    have hchange := @Entity.erase_length_ne_iff name items
    simp only [removeEntity, decide_eq_decide.2 hchange, Option.getD_some]

/-- What a removal makes of the collection, and what it answers. -/
theorem editAt_removeFrom (k : RecordKind) (name : String) (root : Node) :
    (root.removeNamed k name).collection k = (root.collection k).map (Entity.erase name) ∧
      (root.editAt false (removeFrom name) k.collection).2.getD false = k.contains name root := by
  rw [removeNamed]
  obtain ⟨after, answer, he⟩ : ∃ after answer,
      root.editAt false (removeFrom name) k.collection = (after, answer) := ⟨_, _, rfl⟩
  rw [he]
  cases answer with
  | none =>
    obtain ⟨hsame, hl⟩ := editAt_none he
    have hcoll : root.collection k = none := by simp [Node.collection, hl]
    rw [hsame]
    exact ⟨by simp [hcoll], by simp [RecordKind.contains, RecordKind.entity?, hcoll]⟩
  | some removed =>
    obtain ⟨x, hx, hbx, hl | ⟨hf, -⟩⟩ := editAt_some he
    · obtain ⟨hat, hkind⟩ := (locate_of_eq_some_iff k.collectionNames_ne_nil).1 hl
      obtain ⟨items, hi⟩ := kind_eq_sequence_iff.1 hkind
      have hcoll : root.collection k = some items := by simp [Node.collection, hl, hi]
      rw [RecordKind.collection, KeyPath.names_of, removeFrom_eq] at hx
      rw [removeFrom_eq, hi] at hbx
      constructor
      · rw [collection_eq_at?, hx, Option.bind_some, asSequence_eraseItems, hi, hcoll]
      · rw [hbx, Bool.eq_iff_iff, RecordKind.contains_iff, RecordKind.names, hcoll]
        simp
    · cases hf

theorem collection_removeNamed (k : RecordKind) (name : String) (root : Node) :
    (root.removeNamed k name).collection k = (root.collection k).map (Entity.erase name) :=
  (editAt_removeFrom k name root).1

theorem Action.remove_apply (k : RecordKind) (name : String) (s : Session) :
    ∃ s', Action.remove k name s = (.ok (k.contains name s.root), s') ∧
      s'.root = s.root.removeNamed k name := by
  rw [← (editAt_removeFrom k name s.root).2]
  exact ⟨_, rfl, rfl⟩

/-- The removal of a context or a server, as one pass over the document. -/
theorem removeNamed_eq (hd : root.DistinctKeys) (hk : k.collectionNames = [k.topKey])
    (name : String) :
    root.removeNamed k name = root.mapEntries fun key v =>
      some (if key = k.topKey then v.eraseItems name else v) := by
  rw [removeNamed, RecordKind.collection, hk, KeyPath.of, editAt_singleton_eq hd]
  refine mapEntries_congr hd fun key v _ => ?_
  by_cases hv : v.kind = .sequence
  · simp [hv, removeFrom_eq]
  · rw [removeFrom_eq, eraseItems, asSequence_eq_none hv]
    simp

end

end SharedConfig
