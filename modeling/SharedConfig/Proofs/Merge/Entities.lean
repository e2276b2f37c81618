import SharedConfig.Proofs.Merge

/-!
# SharedConfig.Proofs.Merge.Entities

A merged sequence of entities, place by place.

The merge looks every new entity up in the list that it is changing.  What it puts there keeps the
name of what was there before, so the list of names below the old length never changes
(`Entity.map_entityName_put`), and the lookup of one name is not disturbed by the merge of another.

* `Entity.getElem?_put`: an update reaches the first entity of its name and no other place.
* `exists_mergeItems_cons`: what one new entity changes.
* `getElem?_mergeItems`: what stands at the place of a stored entity.
* `drop_mergeItems`: what comes after the stored entities.
* `entities_merge_by_name`: both, with the names, for a merge of two sequences.
-/

namespace SharedConfig

open Node

namespace Entity

variable {name : String}

/-- The place of an entity with no other one of its name before it is found under the name. -/
theorem find?_of_getElem? {items : List Node} {i : Nat} {n : Node} (hi : items[i]? = some n)
    (hname : n.entityName = some name) (hfirst : name ∉ names (items.take i)) :
    find? name items = some n := by
  induction items generalizing i with
  | nil => cases hi
  | cons x rest ih =>
    cases i with
    | zero =>
      cases hi
      simp [find?, hname]
    | succ i =>
      have hx : x.entityName ≠ some name := fun hx =>
        hfirst (mem_names.2 ⟨x, by simp, hx⟩)
      have hrest : name ∉ names (rest.take i) := fun hmem => by
        obtain ⟨y, hy, hyn⟩ := mem_names.1 hmem
        exact hfirst (mem_names.2 ⟨y, by simp [hy], hyn⟩)
      have hfound := ih (by simpa using hi) hrest
      simp only [find?, List.find?_cons, hx, decide_false] at hfound ⊢
      exact hfound

theorem map_entityName_put {node : Node} (hn : node.entityName = some name) {items : List Node}
    (h : name ∈ names items) :
    (put name node items).map entityName = items.map entityName := by
  induction items with
  | nil => cases h
  | cons x rest ih =>
    by_cases hx : x.entityName = some name
    · rw [put, if_pos hx, List.map_cons, List.map_cons, hn, hx]
    · rw [put, if_neg hx, List.map_cons, List.map_cons, ih (mem_names_of_cons h hx)]

theorem names_take_put {node : Node} (hn : node.entityName = some name) {items : List Node}
    (h : name ∈ names items) (i : Nat) :
    names ((put name node items).take i) = names (items.take i) := by
  have hmap : ((put name node items).take i).map entityName = (items.take i).map entityName := by
    rw [List.map_take, List.map_take, map_entityName_put hn h]
  have hid := congrArg (List.filterMap id) hmap
  simpa only [names, List.filterMap_map, Function.id_comp] using hid

/-- An update under a stored name reaches the first entity of that name and no other place. -/
theorem getElem?_put (node : Node) {x : Node} {items : List Node} {i : Nat}
    (hi : items[i]? = some x) (h : name ∈ names items) :
    (put name node items)[i]? =
      if x.entityName = some name ∧ name ∉ names (items.take i) then some node else some x := by
  induction items generalizing i with
  | nil => cases hi
  | cons y rest ih =>
    rw [put]
    by_cases hy : y.entityName = some name
    · rw [if_pos hy]
      cases i with
      | zero =>
        cases hi
        simp [hy, names]
      | succ i =>
        have hbefore : name ∈ names ((y :: rest).take (i + 1)) :=
          mem_names.2 ⟨y, by simp, hy⟩
        rw [if_neg fun hfirst => hfirst.2 hbefore]
        simpa using hi
    · rw [if_neg hy]
      cases i with
      | zero =>
        cases hi
        simp [hy]
      | succ i =>
        have hsame : name ∈ names (y :: rest.take i) ↔ name ∈ names (rest.take i) := by
          simp [mem_names, hy]
        have hplace := ih (by simpa using hi) (mem_names_of_cons h hy)
        simpa [hsame] using hplace

theorem length_put {node : Node} {items : List Node} (h : name ∈ names items) :
    (put name node items).length = items.length := by
  induction items with
  | nil => cases h
  | cons x rest ih =>
    by_cases hx : x.entityName = some name
    · simp [put, hx]
    · simp [put, hx, ih (mem_names_of_cons h hx)]

end Entity

section Items

variable {table : StrategyTable} {path : String}

/-- One new entity: at a place of the list stands what was there, merged if it is the first of the
name, and the names before that place stay. -/
theorem exists_mergeItems_cons {item : Node} (hitem : item.DistinctKeys) {new : String}
    (hin : item.entityName = some new) {old : List Node} {i : Nat} {n : Node}
    (hi : old[i]? = some n) {name : String} (hname : n.entityName = some name)
    (rest : List Node) :
    ∃ next, (mergeItems table path (item :: rest) old).1 = (mergeItems table path rest next).1 ∧
      Entity.names (next.take i) = Entity.names (old.take i) ∧
      next[i]? = if new = name ∧ name ∉ Entity.names (old.take i)
        then some (reconcile item (some n) path table).1 else some n := by
  cases ho : Entity.find? new old with
  | none =>
    -- a name that is not stored is appended, behind every place of the stored list
    have hlt : i < old.length := (List.getElem?_eq_some_iff.1 hi).1
    have hne : new ≠ name := by
      rintro rfl
      exact Entity.find?_eq_none_iff.1 ho (Entity.mem_names.2 ⟨n, List.mem_of_getElem? hi, hname⟩)
    refine ⟨old ++ [item], by rw [mergeItems_cons_of_absent hin ho], ?_, ?_⟩
    · rw [List.take_append_of_le_length (Nat.le_of_lt hlt)]
    · rw [List.getElem?_append_left hlt, hi, if_neg fun hself => hne hself.1]
  | some o =>
    have hmem : new ∈ Entity.names old := Entity.find?_isSome_iff.1 (by rw [ho]; rfl)
    have hmerged : (mergeNode table path item o).1.entityName = some new :=
      entityName_mergeNode hitem hin (Entity.entityName_of_find? ho)
    refine ⟨Entity.put new (mergeNode table path item o).1 old,
      by rw [mergeItems_cons_of_find? hin ho], Entity.names_take_put hmerged hmem i, ?_⟩
    rw [Entity.getElem?_put _ hi hmem]
    by_cases hfirst : new = name ∧ name ∉ Entity.names (old.take i)
    · obtain ⟨rfl, hbefore⟩ := hfirst
      have hon : n = o :=
        Option.some.inj ((Entity.find?_of_getElem? hi hname hbefore).symm.trans ho)
      rw [if_pos ⟨hname, hbefore⟩, if_pos ⟨rfl, hbefore⟩, hon, reconcile]
    · rw [if_neg hfirst, if_neg]
      rintro ⟨hnew, hbefore⟩
      obtain rfl : name = new := Option.some.inj (hname.symm.trans hnew)
      exact hfirst ⟨rfl, hbefore⟩

/-- At the place of a stored entity that is the first of its name stands what it is reconciled to
with the new one of that name; every other stored entity stays. -/
theorem getElem?_mergeItems {items : List Node} (hn : (Entity.names items).Nodup)
    (hd : ∀ c ∈ items, c.DistinctKeys) {old : List Node} {i : Nat} {n : Node}
    (hi : old[i]? = some n) {name : String} (hname : n.entityName = some name) :
    (mergeItems table path items old).1[i]? =
      match Entity.find? name items with
      | some c =>
        if name ∈ Entity.names (old.take i) then some n
        else some (reconcile c (some n) path table).1
      | none => some n := by
  induction items generalizing old n with
  | nil => rw [mergeItems]; exact hi
  | cons item rest ih =>
    obtain ⟨hitem, hrest⟩ := List.forall_mem_cons.1 hd
    cases hin : item.entityName with
    | none =>
      rw [Entity.names_cons_of_none hin] at hn
      rw [mergeItems_cons_of_none hin, ih hn hrest hi hname]
      simp [Entity.find?, hin]
    | some new =>
      rw [Entity.names_cons_of_some hin, List.nodup_cons] at hn
      obtain ⟨next, hnext, hbefore, hplace⟩ := exists_mergeItems_cons hitem hin hi hname rest
      rw [hnext]
      by_cases hne : new = name
      · subst hne
        have hself : Entity.find? new (item :: rest) = some item := by simp [Entity.find?, hin]
        -- the items after this one have other names, so what is put here stays
        have hlast : Entity.find? new rest = none := Entity.find?_eq_none_iff.2 hn.1
        rw [hself]
        by_cases hfirst : new ∈ Entity.names (old.take i)
        · rw [if_neg fun hself => hself.2 hfirst] at hplace
          rw [ih hn.2 hrest hplace hname, hlast]
          exact (if_pos hfirst).symm
        · rw [if_pos ⟨rfl, hfirst⟩] at hplace
          have hmerged : (reconcile item (some n) path table).1.entityName = some new :=
            entityName_mergeNode hitem hin hname
          rw [ih hn.2 hrest hplace hmerged, hlast]
          exact (if_neg hfirst).symm
      · have hother : Entity.find? name (item :: rest) = Entity.find? name rest := by
          simp [Entity.find?, hin, hne]
        rw [if_neg fun hself => hne hself.1] at hplace
        rw [ih hn.2 hrest hplace hname, hbefore, hother]

/-- After the stored entities come the new ones of other names, as they are. -/
theorem drop_mergeItems {items : List Node} (hn : (Entity.names items).Nodup)
    (hd : ∀ c ∈ items, c.DistinctKeys) (hnamed : Entity.allNamed items = true) (old : List Node) :
    (mergeItems table path items old).1.drop old.length =
      items.filter fun c => decide (c.entityName ∉ old.map entityName) := by
  induction items generalizing old with
  | nil =>
    rw [mergeItems]
    simp
  | cons item rest ih =>
    obtain ⟨hitem, hrest⟩ := List.forall_mem_cons.1 hd
    obtain ⟨⟨name, hname⟩, hnames⟩ := List.forall_mem_cons.1 (Entity.allNamed_iff.1 hnamed)
    have hnamed' : Entity.allNamed rest = true := Entity.allNamed_iff.2 hnames
    rw [Entity.names_cons_of_some hname, List.nodup_cons] at hn
    have hstored : item.entityName ∈ old.map entityName ↔ name ∈ Entity.names old := by
      rw [hname, List.mem_map, Entity.mem_names]
    cases ho : Entity.find? name old with
    | some o =>
      have hmem : name ∈ Entity.names old := Entity.find?_isSome_iff.1 (by rw [ho]; rfl)
      have hmerged : (mergeNode table path item o).1.entityName = some name :=
        entityName_mergeNode hitem hname (Entity.entityName_of_find? ho)
      have hlater := ih hn.2 hrest hnamed' (Entity.put name (mergeNode table path item o).1 old)
      rw [Entity.length_put hmem, Entity.map_entityName_put hmerged hmem] at hlater
      rw [mergeItems_cons_of_find? hname ho, hlater,
        List.filter_cons_of_neg (by simpa using hstored.2 hmem)]
    | none =>
      have hmem : name ∉ Entity.names old := Entity.find?_eq_none_iff.1 ho
      have hlater := ih hn.2 hrest hnamed' (old ++ [item])
      -- the appended entity is the first of its name, and no later one reaches it
      have hplace : (mergeItems table path rest (old ++ [item])).1[old.length]? = some item := by
        have hi : (old ++ [item])[old.length]? = some item := by simp
        rw [getElem?_mergeItems hn.2 hrest hi hname, Entity.find?_eq_none_iff.2 hn.1]
      obtain ⟨hlt, hget⟩ := List.getElem?_eq_some_iff.1 hplace
      rw [List.length_append, List.length_singleton] at hlater
      rw [mergeItems_cons_of_absent hname ho, List.drop_eq_getElem_cons hlt, hget, hlater,
        List.filter_cons_of_pos (by simpa using mt hstored.1 hmem)]
      congr 1
      refine List.filter_congr fun c hc => ?_
      have hne : c.entityName ≠ item.entityName := fun he =>
        hn.1 (Entity.mem_names.2 ⟨c, hc, he.trans hname⟩)
      simp [hne]

end Items

/-! ## Two sequences -/

/-- Where a table merges, new entities of different names, none with two keys of one text, are
merged into stored ones by name.  The names are the stored ones and then the new ones, each in their
order.  The first stored entity of a name that is among the new ones becomes what the two are
reconciled to, every other one stays, and the new ones of other names come last as they are.  Unless
all items of both sequences are entities, the new items take the place of the stored ones. -/
theorem entities_merge_by_name (table : StrategyTable) (path : String)
    (h : table.select path = .merge) {existing : Node} {old : List Node}
    (he : existing.asSequence = some old) (items : List Node) :
    (Entity.allNamed old = true → Entity.allNamed items = true → (Entity.names items).Nodup →
      (∀ c ∈ items, c.DistinctKeys) →
      ∃ merged, (mergeNode table path (.sequence items) existing).1 =
          existing.setCore (.sequence merged) ∧
        Entity.names merged = Entity.names old ++
          (Entity.names items).filter (fun name => decide (name ∉ Entity.names old)) ∧
        (∀ i n name, old[i]? = some n → n.entityName = some name →
          (name ∉ Entity.names (old.take i) → ∀ c ∈ items, c.entityName = some name →
            merged[i]? = some (reconcile c (some n) path table).1) ∧
          (name ∈ Entity.names (old.take i) ∨ name ∉ Entity.names items →
            merged[i]? = some n)) ∧
        merged.drop old.length =
          items.filter fun c => decide (c.entityName ∉ old.map entityName)) ∧
      (¬ (Entity.allNamed old = true ∧ Entity.allNamed items = true) →
        (mergeNode table path (.sequence items) existing).1 =
          existing.setCore (.sequence items)) := by
  refine ⟨fun hold hnew hn hd => ?_, fun hnot => ?_⟩
  · refine ⟨(mergeItems table path items old).1, ?_, names_mergeItems hn hd old, ?_,
      drop_mergeItems hn hd hnew old⟩
    · rw [mergeNode_sequence h he, hold, hnew]
      rfl
    intro i n name hi hname
    have hplace : (mergeItems table path items old).1[i]? = _ :=
      getElem?_mergeItems hn hd hi hname
    refine ⟨fun hfirst c hc hcn => ?_, fun hother => ?_⟩
    · rw [hplace, Entity.find?_of_mem hn hc hcn]
      exact if_neg hfirst
    · rw [hplace]
      rcases hother with hbefore | habsent
      · split
        · rw [if_pos hbefore]
        · rfl
      · rw [Entity.find?_eq_none_iff.2 habsent]
  · rw [mergeNode_sequence h he, if_neg (by simpa [Bool.and_eq_true] using hnot)]

/-- Under a tag, with a name that is stored twice, a name of another kind and a new name. -/
theorem entities_merge_by_name_below_tag :
    let number : Node := .scalar ⟨"1", .int, none⟩
    let old : List Node := [
      .mapping [(.string "name", .string "a"), (.string "z", .string "kept")],
      .tagged "u" (.mapping [(.string "name", .string "1"), (.string "k", .string "old")]),
      .mapping [(.string "name", .string "a")]]
    let new : List Node := [
      .mapping [(.string "name", .string "c")],
      .mapping [(.string "name", number), (.string "k", .string "new")],
      .mapping [(.string "name", .string "a"), (.string "k", number)]]
    let merged : List Node := [
      .mapping [(.string "name", .string "a"), (.string "z", .string "kept"),
        (.string "k", number)],
      .tagged "u" (.mapping [(.string "name", number), (.string "k", .string "new")]),
      .mapping [(.string "name", .string "a")],
      .mapping [(.string "name", .string "c")]]
    (mergeNode .empty "p" (.sequence new) (.tagged "t" (.sequence old))).1 =
        .tagged "t" (.sequence merged) ∧
      Entity.names merged = ["a", "1", "a", "c"] := by
  intro number old new merged
  have hkeys : ∀ c ∈ new, c.DistinctKeys := fun c hc =>
    Unambiguous.distinctKeys ((by decide : ∀ c ∈ new, c.Unambiguous) c hc)
  have hold : (Node.tagged "t" (.sequence old)).asSequence = some old := rfl
  obtain ⟨found, hfound, hnames, -, -⟩ :=
    (entities_merge_by_name .empty "p" rfl hold new).1 (by decide) (by decide) (by decide) hkeys
  have hmerged : (mergeNode .empty "p" (.sequence new) (.tagged "t" (.sequence old))).1 =
      .tagged "t" (.sequence merged) := by decide
  rw [hmerged] at hfound
  obtain rfl : merged = found := by simpa [setCore] using hfound
  exact ⟨hmerged, hnames.trans (by decide)⟩

end SharedConfig
