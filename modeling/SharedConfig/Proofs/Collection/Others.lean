import SharedConfig.Proofs.Collection

/-!
# SharedConfig.Proofs.Collection.Others

The items of other names, and the collections of other kinds.  The collections of the records that
are written by themselves lie side by side under the same keys, so that they are apart is not seen at
the first key of their paths but at the last one (`RecordKind.collectionNames_apart`).

* `Entity.others_put`, `Entity.others_erase`: an update and a removal under a name leave all other
  items alone, those without a name included, and their order.
* `Action.upsert_onlyEntity`, `removeNamed_onlyEntity`: the same for a whole document.
-/

namespace SharedConfig

open Node

namespace Entity

/-- The items that have none of some names. -/
def others (names : List String) (items : List Node) : List Node :=
  items.filter fun n => n.entityName.all fun name => decide (name ∉ names)

def unnamed (items : List Node) : List Node := items.filter fun n => n.entityName.isNone

variable {name : String} {names : List String} {items : List Node}

@[simp] theorem others_nil (items : List Node) : others [] items = items := by
  refine List.filter_eq_self.2 fun n _ => ?_
  cases n.entityName <;> rfl

theorem others_cons_of_mem {n : Node} (hn : n.entityName = some name) (h : name ∈ names)
    (rest : List Node) : others names (n :: rest) = others names rest := by
  rw [others, List.filter_cons_of_neg (by simp [hn, h]), others]

theorem others_cons_of_ne {n : Node} (h : n.entityName ≠ some name) (rest : List Node) :
    others [name] (n :: rest) = n :: others [name] rest := by
  refine List.filter_cons_of_pos ?_
  cases hn : n.entityName with
  | none => rfl
  | some other =>
    have hne : other ≠ name := fun he => h (he ▸ hn)
    simpa using hne

theorem others_others {more : List String} (h : ∀ name ∈ names, name ∈ more) (items : List Node) :
    others more (others names items) = others more items := by
  rw [others, others, List.filter_filter, others]
  refine List.filter_congr fun n _ => ?_
  cases hn : n.entityName with
  | none => rfl
  | some name =>
    by_cases hmem : name ∈ more
    · simp [hmem]
    · simp [hmem, mt (h name) hmem]

theorem unnamed_others (names : List String) (items : List Node) :
    unnamed (others names items) = unnamed items := by
  rw [unnamed, others, List.filter_filter, unnamed]
  refine List.filter_congr fun n _ => ?_
  cases n.entityName <;> simp

theorem others_put {node : Node} (hn : node.entityName = some name) (items : List Node) :
    others [name] (put name node items) = others [name] items := by
  have hname : name ∈ [name] := List.mem_singleton_self name
  induction items with
  | nil => exact others_cons_of_mem hn hname []
  | cons n rest ih =>
    rw [put]
    split
    · rename_i hsame
      rw [others_cons_of_mem hn hname, others_cons_of_mem hsame hname]
    · rename_i hother
      rw [others_cons_of_ne hother, others_cons_of_ne hother, ih]

theorem others_erase (name : String) (items : List Node) :
    others [name] (erase name items) = others [name] items := by
  rw [others, erase, List.filter_filter, others]
  refine List.filter_congr fun n _ => ?_
  cases n.entityName <;> simp

end Entity

/-- The keys to two collections part before either ends. -/
theorem RecordKind.collectionNames_apart {k k' : RecordKind} (h : k' ≠ k) :
    ¬ k.collectionNames <+: k'.collectionNames := by
  cases k <;> cases k' <;> first | exact absurd rfl h | decide

theorem collection_editAt_of_ne {β : Type} {create : Bool} {edit : Node → Node × β}
    {k k' : RecordKind} (h : k' ≠ k) (root : Node) :
    (root.editAt create edit k.collection).1.collection k' = root.collection k' := by
  have hnames : k.collection.names = k.collectionNames := KeyPath.names_of _ _
  rw [collection_eq_at?, collection_eq_at?, at?_editAt_apart]
  · rw [hnames]
    exact RecordKind.collectionNames_apart h
  · rw [hnames]
    exact RecordKind.collectionNames_apart h.symm

/-- A change of the entities of one name in one collection. -/
structure OnlyEntity (k : RecordKind) (name : String) (before after : Node) : Prop where
  frame : OnlyUnder k.topKey before after
  collection : ∀ k', k' ≠ k → after.collection k' = before.collection k'
  items : Entity.others [name] (k.items after) = Entity.others [name] (k.items before)

variable {k : RecordKind}

theorem Action.upsert_onlyEntity {r : k.Record} {s s' : Session} {changed : Bool}
    (h : Action.upsert k r s = (.ok changed, s')) :
    OnlyEntity k (k.recordName r) s.root s'.root where
  frame := (Action.upsert_eq_ok h).frame
  collection k' hk' := by
    obtain ⟨candidate, root, -, hedit, rfl⟩ := Action.exists_edit_of_upsert h
    have hsame : (s.root.editAt true (upsertInto s.strategies k.collection.dotted candidate)
        k.collection).1.collection k' = s.root.collection k' := collection_editAt_of_ne hk' s.root
    rw [hedit] at hsame
    exact hsame
  items := by
    obtain ⟨candidate, -, hname, hafter⟩ := (Action.upsert_eq_ok h).put
    rw [RecordKind.items, hafter, Option.getD_some]
    exact Entity.others_put hname _

theorem removeNamed_onlyEntity (k : RecordKind) (name : String) (root : Node) :
    OnlyEntity k name root (root.removeNamed k name) where
  frame := removeNamed_onlyUnder k name root
  collection k' hk' := collection_editAt_of_ne hk' root
  items := by
    rw [RecordKind.items_of_erase (collection_removeNamed k name root)]
    exact Entity.others_erase name _

end SharedConfig
