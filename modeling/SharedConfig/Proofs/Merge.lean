import SharedConfig.Merge
import SharedConfig.Proofs.Entity

/-!
# SharedConfig.Proofs.Merge

What a merge makes of one node, of the entries of a mapping and of the items of a sequence.  A merge
goes on below a mapping only where the table says so and both trees have a mapping there, the new
one without a tag.

* `mergeNode_of_replace`, `mergeNode_of_tag`, `mergeNode_of_kind_ne`: where the new node takes the
  place of the stored one.
* `get?_mergeEntries`, `map_fst_mergeEntries`: a merged mapping, key by key.
* `names_mergeItems`: a merged sequence of entities, name by name.
* `entityName_mergeNode`: a merge renames nothing.
* `upsertEntity_eq`: an update of a collection is an entity put under its name.
* `mergeNode_unchanged`: a merge that reports no change has made none.
-/

namespace SharedConfig

open Node

@[simp] theorem replaceBy_fst (candidate existing : Node) :
    (replaceBy candidate existing).1 = candidate := by
  unfold replaceBy
  split
  · assumption
  · rfl

@[simp] theorem replaceItems_fst (candidate existing : List Node) :
    (replaceItems candidate existing).1 = candidate := by
  unfold replaceItems
  split
  · assumption
  · rfl

section Node

variable {table : StrategyTable} {path : String}

theorem mergeNode_of_replace (h : table.select path = .replace) (candidate existing : Node) :
    mergeNode table path candidate existing = replaceBy candidate existing := by
  cases candidate <;> simp [mergeNode, h]

theorem mergeNode_of_tag {candidate : Node} (h : candidate.tag ≠ none) (existing : Node) :
    mergeNode table path candidate existing = replaceBy candidate existing := by
  cases candidate with
  | scalar s =>
    have hs : s.tag ≠ none := h
    simp [mergeNode, hs]
  | sequence items => exact absurd rfl h
  | mapping entries => exact absurd rfl h
  | tagged t n => exact mergeNode_tagged table path t n existing

theorem mergeNode_of_kind_ne {candidate existing : Node} (h : candidate.kind ≠ existing.kind) :
    mergeNode table path candidate existing = replaceBy candidate existing := by
  rw [← kind_core existing] at h
  cases candidate with
  | scalar s =>
    cases hc : existing.core <;> simp [hc, kind] at h <;> simp [mergeNode, hc]
  | sequence items =>
    cases hc : existing.core <;> simp [hc, kind] at h <;> simp [mergeNode, hc]
  | mapping entries =>
    cases hc : existing.core <;> simp [hc, kind] at h <;> simp [mergeNode, hc]
  | tagged t n => exact mergeNode_tagged table path t n existing

/-- Unless the table merges trees of one shape, the new tree takes the place of the stored one. -/
theorem mergeNode_of_not_merged {candidate existing : Node}
    (h : ¬ (table.select path = .merge ∧ existing.kind = candidate.kind)) :
    (mergeNode table path candidate existing).1 = candidate := by
  cases hs : table.select path with
  | replace => rw [mergeNode_of_replace hs, replaceBy_fst]
  | merge =>
    have hk : candidate.kind ≠ existing.kind := fun hk => h ⟨hs, hk.symm⟩
    rw [mergeNode_of_kind_ne hk, replaceBy_fst]

theorem mergeNode_scalar (s e : Scalar) :
    (mergeNode table path (.scalar s) (.scalar e)).1 = .scalar s := by
  rw [mergeNode]
  split <;> simp [core, setCore]

/-- A scalar is taken from the new tree, under the tags that are around the stored one. -/
theorem core_mergeNode_scalar (s : Scalar) (existing : Node) :
    (mergeNode table path (.scalar s) existing).1.core = .scalar s := by
  rw [mergeNode]
  split
  · split
    · dsimp only
      rw [core_setCore, replaceBy_fst, core]
      simp
    · rw [replaceBy_fst, core]
      simp
  · rw [replaceBy_fst, core]
    simp

theorem mergeNode_sequence (h : table.select path = .merge) {existing : Node} {old : List Node}
    (he : existing.asSequence = some old) (items : List Node) :
    (mergeNode table path (.sequence items) existing).1 =
      existing.setCore (.sequence
        (if Entity.allNamed old && Entity.allNamed items then (mergeItems table path items old).1
          else items)) := by
  rw [mergeNode, if_pos h, asSequence_eq_some_iff.1 he]
  dsimp only
  split <;> simp

theorem mergeNode_mapping (h : table.select path = .merge) {existing : Node} {old : Mapping}
    (he : existing.asMapping = some old) (entries : Mapping) :
    mergeNode table path (.mapping entries) existing =
      (existing.setCore (.mapping (mergeEntries table path entries old).1),
        (mergeEntries table path entries old).2) := by
  rw [mergeNode, if_pos h, asMapping_eq_some_iff.1 he]

theorem asMapping_mergeNode (h : table.select path = .merge) {existing : Node} {old : Mapping}
    (he : existing.asMapping = some old) (entries : Mapping) :
    (mergeNode table path (.mapping entries) existing).1.asMapping =
      some (mergeEntries table path entries old).1 := by
  rw [mergeNode_mapping h he, asMapping_setCore]
  rfl

end Node

/-! ## Mappings, key by key -/

section Entries

variable {table : StrategyTable} {path : String}

theorem mergeEntries_cons (key : Scalar) (value : Node) (rest old : Mapping) :
    (mergeEntries table path ((key, value) :: rest) old).1 =
      (mergeEntries table path rest (old.insert key
        (reconcile value (old.get? key.text) (joinPath path key.text) table).1)).1 := by
  rw [mergeEntries]
  cases old.get? key.text <;> rfl

/-- Under a key of the new mapping is its value, reconciled with the stored one. -/
theorem get?_mergeEntries {entries : Mapping} (hd : entries.keys.Nodup) (old : Mapping)
    (key : String) :
    (mergeEntries table path entries old).1.get? key =
      match entries.get? key with
      | none => old.get? key
      | some v => some (reconcile v (old.get? key) (joinPath path key) table).1 := by
  induction entries generalizing old with
  | nil => rw [mergeEntries_nil]; rfl
  | cons e rest ih =>
    obtain ⟨k, v⟩ := e
    rw [Mapping.keys_cons, List.nodup_cons] at hd
    rw [mergeEntries_cons, ih hd.2, Mapping.get?_cons]
    -- the entries after this one have other keys, so what it has put there stays
    by_cases hk : k.text = key
    · subst hk
      rw [Mapping.get?_eq_none_iff.2 hd.1]
      simp
    · simp [Mapping.get?_insert, hk]

/-- The keys of the stored mapping stay as and where they are, and new ones come after them. -/
theorem map_fst_mergeEntries {entries : Mapping} (hd : entries.keys.Nodup) (old : Mapping) :
    (mergeEntries table path entries old).1.map Prod.fst =
      old.map Prod.fst ++ (entries.map Prod.fst).filter fun k => decide (k.text ∉ old.keys) := by
  induction entries generalizing old with
  | nil => rw [mergeEntries_nil]; simp
  | cons e rest ih =>
    obtain ⟨k, v⟩ := e
    rw [Mapping.keys_cons, List.nodup_cons] at hd
    rw [mergeEntries_cons, ih hd.2, Mapping.map_fst_insert, Mapping.keys_insert]
    by_cases hk : k.text ∈ old.keys
    · simp [hk]
    · have hrest : ∀ k' ∈ rest.map Prod.fst, k'.text ≠ k.text := by
        intro k' hk' he
        exact hd.1 (he ▸ Mapping.keys_eq_map rest ▸ List.mem_map_of_mem hk')
      rw [if_neg hk, if_neg hk, List.map_cons, List.filter_cons_of_pos (by simpa using hk),
        List.append_assoc, List.singleton_append]
      congr 2
      refine List.filter_congr fun k' hk' => ?_
      simp [hrest k' hk']

theorem nodup_keys_mergeEntries {old : Mapping} (h : old.keys.Nodup) (entries : Mapping) :
    (mergeEntries table path entries old).1.keys.Nodup := by
  induction entries generalizing old with
  | nil => rw [mergeEntries_nil]; exact h
  | cons e rest ih =>
    rw [mergeEntries_cons]
    exact ih (Mapping.nodup_keys_insert h _ _)

theorem distinctKeys_mergeNode {candidate existing : Node} (hc : candidate.DistinctKeys)
    (he : existing.DistinctKeys) : (mergeNode table path candidate existing).1.DistinctKeys := by
  cases hs : table.select path with
  | replace => rw [mergeNode_of_replace hs, replaceBy_fst]; exact hc
  | merge =>
    by_cases hk : candidate.kind = existing.kind
    · cases candidate with
      | scalar s =>
        intro m hm
        rw [asMapping_eq_some_iff, core_mergeNode_scalar] at hm
        cases hm
      | sequence items =>
        obtain ⟨old, ho⟩ := kind_eq_sequence_iff.1 hk.symm
        intro m hm
        rw [mergeNode_sequence hs ho, asMapping_setCore] at hm
        cases hm
      | mapping entries =>
        obtain ⟨old, ho⟩ := kind_eq_mapping_iff.1 hk.symm
        intro m hm
        rw [asMapping_mergeNode hs ho] at hm
        cases hm
        exact nodup_keys_mergeEntries (he old ho) entries
      | tagged t n => rw [mergeNode_of_tag (by simp [tag]), replaceBy_fst]; exact hc
    · rw [mergeNode_of_kind_ne hk, replaceBy_fst]; exact hc

end Entries

/-! ## Entities, name by name -/

section Items

variable {table : StrategyTable} {path name : String}

theorem entityName_mergeNode {candidate existing : Node}
    (hd : candidate.DistinctKeys)
    (hc : candidate.entityName = some name) {other : String}
    (he : existing.entityName = some other) :
    (mergeNode table path candidate existing).1.entityName = some name := by
  cases hs : table.select path with
  | replace => rw [mergeNode_of_replace hs, replaceBy_fst]; exact hc
  | merge =>
    obtain ⟨⟨v, hv, hvn⟩, hne⟩ := entityName_eq_some_iff.1 hc
    obtain ⟨⟨x, hx, hxn⟩, -⟩ := entityName_eq_some_iff.1 he
    cases candidate with
    | scalar s => cases hv
    | sequence items => cases hv
    | tagged t n => rw [mergeNode_of_tag (by simp [tag]), replaceBy_fst]; exact hc
    | mapping entries =>
      cases ho : existing.asMapping with
      | none => simp [child?, ho] at hx
      | some old =>
        rw [child?_of_asMapping ho] at hx
        rw [child?_of_asMapping rfl] at hv
        obtain ⟨s, rfl, hs0, hst⟩ := asText_eq_some_iff.1 hvn
        obtain ⟨e, rfl, -, -⟩ := asText_eq_some_iff.1 hxn
        refine entityName_eq_some_iff.2 ⟨⟨.scalar s, ?_, hvn⟩, hne⟩
        rw [mergeNode_mapping hs ho, child?_setCore, get?_mergeEntries (hd entries rfl), hv, hx]
        simp only [reconcile, mergeNode_scalar]

theorem mergeItems_cons_of_none {item : Node} (h : item.entityName = none)
    (rest old : List Node) :
    (mergeItems table path (item :: rest) old).1 = (mergeItems table path rest old).1 := by
  rw [mergeItems, h]

theorem mergeItems_cons_of_find? {item o : Node} {old : List Node} (h : item.entityName = some name)
    (ho : Entity.find? name old = some o) (rest : List Node) :
    (mergeItems table path (item :: rest) old).1 =
      (mergeItems table path rest
        (Entity.put name (mergeNode table path item o).1 old)).1 := by
  rw [mergeItems, h]
  simp only [ho]

theorem mergeItems_cons_of_absent {item : Node} {old : List Node} (h : item.entityName = some name)
    (ho : Entity.find? name old = none) (rest : List Node) :
    (mergeItems table path (item :: rest) old).1 =
      (mergeItems table path rest (old ++ [item])).1 := by
  rw [mergeItems, h]
  simp only [ho]

/-- What holds of the items of both sequences, and of items merged, holds of the merged sequence. -/
theorem forall_mem_mergeItems {p : Node → Prop} {items old : List Node}
    (hn : ∀ n ∈ items, p n ∧ ∀ o, p o → p (mergeNode table path n o).1) (ho : ∀ n ∈ old, p n) :
    ∀ n ∈ (mergeItems table path items old).1, p n := by
  induction items generalizing old with
  | nil => rw [mergeItems_nil]; exact ho
  | cons item rest ih =>
    obtain ⟨⟨hitem, hmerge⟩, hrest⟩ := List.forall_mem_cons.1 hn
    cases hi : item.entityName with
    | none => rw [mergeItems_cons_of_none hi]; exact ih hrest ho
    | some name =>
      cases hf : Entity.find? name old with
      | none =>
        rw [mergeItems_cons_of_absent hi hf]
        exact ih hrest (List.forall_mem_append.2 ⟨ho, List.forall_mem_singleton.2 hitem⟩)
      | some o =>
        have hnew := hmerge o (ho o (List.mem_of_find?_eq_some hf))
        rw [mergeItems_cons_of_find? hi hf]
        refine ih hrest fun n hmem => ?_
        rcases Entity.mem_put hmem with rfl | hmem
        · exact hnew
        · exact ho n hmem

theorem names_mergeItems {items : List Node} (hn : (Entity.names items).Nodup)
    (hd : ∀ n ∈ items, n.DistinctKeys) (old : List Node) :
    Entity.names (mergeItems table path items old).1 =
      Entity.names old ++ (Entity.names items).filter fun n => decide (n ∉ Entity.names old) := by
  induction items generalizing old with
  | nil => rw [mergeItems_nil]; simp [Entity.names]
  | cons item rest ih =>
    have hd' : ∀ n ∈ rest, n.DistinctKeys := fun n h =>
      hd n (List.mem_cons_of_mem _ h)
    cases hi : item.entityName with
    | none =>
      rw [Entity.names_cons_of_none hi] at hn ⊢
      rw [mergeItems_cons_of_none hi, ih hn hd']
    | some name =>
      rw [Entity.names_cons_of_some hi, List.nodup_cons] at hn
      rw [Entity.names_cons_of_some hi]
      cases ho : Entity.find? name old with
      -- a stored entity keeps its name in the merge, so the names stay as they are
      | some o =>
        have hmem : name ∈ Entity.names old := Entity.find?_isSome_iff.1 (by rw [ho]; rfl)
        have hnew : (mergeNode table path item o).1.entityName = some name :=
          entityName_mergeNode (hd item List.mem_cons_self) hi (Entity.entityName_of_find? ho)
        rw [mergeItems_cons_of_find? hi ho, ih hn.2 hd', Entity.names_put hnew hmem,
          List.filter_cons_of_neg (by simpa using hmem)]
      | none =>
        have hmem : name ∉ Entity.names old := Entity.find?_eq_none_iff.1 ho
        have hone : Entity.names [item] = [name] := Entity.names_cons_of_some hi []
        rw [mergeItems_cons_of_absent hi ho, ih hn.2 hd', Entity.names_append, hone,
          List.filter_cons_of_pos (by simpa using hmem), List.append_assoc, List.singleton_append]
        congr 2
        refine List.filter_congr fun n hr => ?_
        have hne : n ≠ name := fun h => hn.1 (h ▸ hr)
        simp [hne]

/-! ## Updates -/

variable (table path) in
theorem entityName_reconcile {candidate : Node}
    (hd : candidate.DistinctKeys)
    (hc : candidate.entityName = some name) (items : List Node) :
    (reconcile candidate (Entity.find? name items) path table).1.entityName = some name := by
  cases ho : Entity.find? name items with
  | none => exact hc
  | some old => exact entityName_mergeNode hd hc (Entity.entityName_of_find? ho)

/-- An entity is put under its name, reconciled with the first stored one of that name. -/
theorem upsertEntity_eq {candidate : Node} (hc : candidate.entityName = some name)
    (items : List Node) :
    upsertEntity table path candidate items =
      .ok (Entity.put name (reconcile candidate (Entity.find? name items) path table).1 items,
        (reconcile candidate (Entity.find? name items) path table).2) := by
  rw [upsertEntity, hc]
  cases ho : Entity.find? name items with
  | some old => simp [ho, reconcile]
  | none => simp [ho, reconcile, Entity.put_of_absent (Entity.find?_eq_none_iff.1 ho)]

variable (table path) in
theorem distinctKeys_reconcile {candidate : Node} (hc : candidate.DistinctKeys)
    {existing : Option Node} (he : ∀ e, existing = some e → e.DistinctKeys) :
    (reconcile candidate existing path table).1.DistinctKeys := by
  cases existing with
  | none => exact hc
  | some e => exact distinctKeys_mergeNode hc (he e rfl)

variable (table path) in
/-- A scalar under a key of the new mapping comes to stand there, under tags at most. -/
theorem child?_reconcile_scalar {entries : Mapping} (hd : entries.keys.Nodup) {key : String}
    {s : Scalar} (hs : entries.get? key = some (.scalar s)) (existing : Option Node) :
    ∃ v, (reconcile (.mapping entries) existing path table).1.child? key = some v ∧
      v.core = .scalar s := by
  have hself : ∃ v, (Node.mapping entries).child? key = some v ∧ v.core = .scalar s :=
    ⟨_, hs, by simp [core]⟩
  cases existing with
  | none => exact hself
  | some e =>
    by_cases hmerge : table.select path = .merge ∧ e.kind = .mapping
    · obtain ⟨old, ho⟩ := kind_eq_mapping_iff.1 hmerge.2
      rw [reconcile, mergeNode_mapping hmerge.1 ho, child?_setCore, get?_mergeEntries hd, hs]
      refine ⟨_, rfl, ?_⟩
      cases old.get? key with
      | none => simp [reconcile, core]
      | some x => exact core_mergeNode_scalar s x
    -- else the new mapping takes the place of what is stored
    · rw [reconcile, mergeNode_of_not_merged hmerge]
      exact hself

theorem upsertEntity_of_none {candidate : Node} (hc : candidate.entityName = none)
    (items : List Node) : upsertEntity table path candidate items = .error (.missingName path) := by
  rw [upsertEntity, hc]

end Items

/-! ## What is reported -/

section Report

variable {table : StrategyTable} {path : String}

theorem replaceBy_unchanged {candidate existing : Node}
    (h : (replaceBy candidate existing).2 = false) :
    (replaceBy candidate existing).1 = existing := by
  rw [replaceBy_fst]
  unfold replaceBy at h
  split at h
  · rename_i heq
    exact heq.symm
  · cases h

theorem replaceItems_unchanged {candidate existing : List Node}
    (h : (replaceItems candidate existing).2 = false) :
    (replaceItems candidate existing).1 = existing := by
  rw [replaceItems_fst]
  unfold replaceItems at h
  split at h
  · rename_i heq
    exact heq.symm
  · cases h

/-- Merging a node into a stored one, wherever that is, reports the changes that it makes. -/
def ReportsMerge (table : StrategyTable) (candidate : Node) : Prop :=
  ∀ path existing, (mergeNode table path candidate existing).2 = false →
    (mergeNode table path candidate existing).1 = existing

theorem mergeEntries_unchanged {entries : Mapping} (he : ∀ e ∈ entries, ReportsMerge table e.2)
    {old : Mapping} (h : (mergeEntries table path entries old).2 = false) :
    (mergeEntries table path entries old).1 = old := by
  induction entries generalizing old with
  | nil => rw [mergeEntries_nil]
  | cons e rest ih =>
    obtain ⟨key, value⟩ := e
    obtain ⟨hvalue, hrest⟩ := List.forall_mem_cons.1 he
    rw [mergeEntries] at h ⊢
    cases hold : old.get? key.text with
    -- a new key is always a change
    | none => rw [hold] at h; cases h
    | some stored =>
      rw [hold] at h
      dsimp only at h ⊢
      rw [Bool.or_eq_false_iff] at h
      have hsame : (mergeNode table (joinPath path key.text) value stored).1 = stored :=
        hvalue _ stored h.1
      rw [hsame, Mapping.insert_get? key hold] at h ⊢
      exact ih hrest h.2

theorem mergeItems_unchanged {items : List Node} (hi : ∀ n ∈ items, ReportsMerge table n)
    {old : List Node} (h : (mergeItems table path items old).2 = false) :
    (mergeItems table path items old).1 = old := by
  induction items generalizing old with
  | nil => rw [mergeItems_nil]
  | cons item rest ih =>
    obtain ⟨hitem, hrest⟩ := List.forall_mem_cons.1 hi
    rw [mergeItems] at h ⊢
    cases hname : item.entityName with
    | none =>
      rw [hname] at h
      exact ih hrest h
    | some name =>
      rw [hname] at h
      dsimp only at h ⊢
      cases hold : Entity.find? name old with
      | none => rw [hold] at h; cases h
      | some stored =>
        rw [hold] at h
        dsimp only at h ⊢
        rw [Bool.or_eq_false_iff] at h
        rw [hitem _ stored h.1, Entity.put_find? hold] at h ⊢
        exact ih hrest h.2

theorem mergeNode_unchanged (table : StrategyTable) (candidate : Node) :
    ReportsMerge table candidate := by
  induction candidate using tree_induction with
  | tagged t n ih =>
    intro path existing h
    rw [mergeNode] at h ⊢
    exact replaceBy_unchanged h
  | scalar s =>
    intro path existing h
    rw [mergeNode] at h ⊢
    split at h
    · rename_i hs
      rw [if_pos hs]
      split at h
      · rename_i e he
        dsimp only
        rw [replaceBy_unchanged h, ← he, setCore_core]
      · exact replaceBy_unchanged h
    · rename_i hs
      rw [if_neg hs]
      exact replaceBy_unchanged h
  | sequence items ih =>
    intro path existing h
    rw [mergeNode] at h ⊢
    split at h
    · rename_i hs
      rw [if_pos hs]
      split at h
      · rename_i old ho
        dsimp only at h ⊢
        split at h
        · rename_i hnamed
          rw [if_pos hnamed, mergeItems_unchanged ih h, ← ho, setCore_core]
        · rename_i hnamed
          rw [if_neg hnamed, replaceItems_unchanged h, ← ho, setCore_core]
      · exact replaceBy_unchanged h
    · rename_i hs
      rw [if_neg hs]
      exact replaceBy_unchanged h
  | mapping entries ih =>
    intro path existing h
    rw [mergeNode] at h ⊢
    split at h
    · rename_i hs
      rw [if_pos hs]
      split at h
      · rename_i old ho
        dsimp only at h ⊢
        rw [mergeEntries_unchanged ih h, ← ho, setCore_core]
      · exact replaceBy_unchanged h
    · rename_i hs
      rw [if_neg hs]
      exact replaceBy_unchanged h

theorem reconcile_unchanged {candidate : Node} {existing : Option Node}
    (h : (reconcile candidate existing path table).2 = false) :
    existing = some (reconcile candidate existing path table).1 := by
  cases existing with
  | none => cases h
  | some e => exact congrArg some (mergeNode_unchanged table candidate path e h).symm

end Report

end SharedConfig
