import SharedConfig.Proofs.Tree

/-!
# SharedConfig.Proofs.Entity

Sequences of entities as dictionaries by name.

* `entityName_eq_some_iff`: the name of an entity, as what is under its key `name`.
* `names_put`, `names_erase`: what an update and a removal do to the names.
* `mem_put`: an update brings in one node.
* `put_comm`: updates under two names commute if one of them is present.
* `find?_put`, `find?_erase`: what is found by name after an update and after a removal.
-/

namespace SharedConfig

theorem Node.asText_eq_some_iff {n : Node} {t : String} :
    n.asText = some t ↔ ∃ s, n = .scalar s ∧ s.isNull = false ∧ s.text = t := by
  cases n with
  | scalar s => cases h : s.isNull <;> simp [asText, asScalar, h]
  | sequence items => simp [asText, asScalar]
  | mapping m => simp [asText, asScalar]
  | tagged tag n => simp [asText, asScalar]

theorem Node.entityName_eq_some_iff {n : Node} {name : String} :
    n.entityName = some name ↔
      (∃ v, n.child? "name" = some v ∧ v.asText = some name) ∧ name ≠ "" := by
  unfold entityName child?
  cases n.asMapping with
  | none => simp
  | some m =>
    cases hv : m.get? "name" with
    | none => simp [hv]
    | some v =>
      cases ht : v.asText with
      | none => simp [hv, ht]
      | some s =>
        by_cases hs : s = ""
        · simp [hv, ht, hs]
        · simp only [hv, ht, hs, if_false, Option.some.injEq, exists_eq_left']
          exact ⟨fun h => ⟨h, h ▸ hs⟩, fun h => h.1⟩

namespace Entity

variable {name : String}

@[simp] theorem names_append (a b : List Node) : names (a ++ b) = names a ++ names b := by
  simp [names]

theorem mem_names {items : List Node} : name ∈ names items ↔ ∃ n ∈ items, n.entityName = some name := by
  simp [names, List.mem_filterMap]

theorem names_cons_of_some {n : Node} (h : n.entityName = some name) (rest : List Node) :
    names (n :: rest) = name :: names rest := by
  simp [names, h]

theorem names_cons_of_none {n : Node} (h : n.entityName = none) (rest : List Node) :
    names (n :: rest) = names rest := by
  simp [names, h]

theorem mem_names_of_cons {n : Node} {rest : List Node} (h : name ∈ names (n :: rest))
    (hn : n.entityName ≠ some name) : name ∈ names rest := by
  obtain ⟨x, hx, hxn⟩ := mem_names.1 h
  rcases List.mem_cons.1 hx with rfl | hx
  · exact absurd hxn hn
  · exact mem_names.2 ⟨x, hx, hxn⟩

theorem find?_eq_none_iff {items : List Node} : find? name items = none ↔ name ∉ names items := by
  simp [find?, mem_names]

theorem find?_isSome_iff {items : List Node} :
    (find? name items).isSome = true ↔ name ∈ names items := by
  simp [find?, mem_names]

theorem entityName_of_find? {items : List Node} {n : Node} (h : find? name items = some n) :
    n.entityName = some name := by
  simpa using List.find?_some h

theorem names_put {node : Node} (hn : node.entityName = some name) {items : List Node}
    (h : name ∈ names items) : names (put name node items) = names items := by
  induction items with
  | nil => simp [names] at h
  | cons n rest ih =>
    by_cases hc : n.entityName = some name
    · rw [put, if_pos hc, names_cons_of_some hn, names_cons_of_some hc]
    · have hr := mem_names_of_cons h hc
      rw [put, if_neg hc]
      simp only [names, List.filterMap_cons] at ih ⊢
      rw [ih hr]

theorem put_of_absent {items : List Node} (h : name ∉ names items) (node : Node) :
    put name node items = items ++ [node] := by
  induction items with
  | nil => rfl
  | cons n rest ih =>
    have hn : n.entityName ≠ some name := fun hn =>
      h (mem_names.2 ⟨n, List.mem_cons_self, hn⟩)
    have hr : name ∉ names rest := fun hr => by
      obtain ⟨x, hx, hxn⟩ := mem_names.1 hr
      exact h (mem_names.2 ⟨x, List.mem_cons_of_mem _ hx, hxn⟩)
    rw [put, if_neg hn, ih hr, List.cons_append]

theorem names_put_eq {node : Node} (hn : node.entityName = some name) (items : List Node) :
    names (put name node items) =
      if name ∈ names items then names items else names items ++ [name] := by
  split
  · rename_i h
    exact names_put hn h
  · rename_i h
    rw [put_of_absent h, names_append, names_cons_of_some hn]
    rfl

theorem mem_put {node x : Node} {items : List Node} (h : x ∈ put name node items) :
    x = node ∨ x ∈ items := by
  induction items with
  | nil => exact .inl (List.mem_singleton.1 h)
  | cons n rest ih =>
    rw [put] at h
    split at h
    · rcases List.mem_cons.1 h with h | h
      · exact .inl h
      · exact .inr (List.mem_cons_of_mem _ h)
    · rcases List.mem_cons.1 h with h | h
      · exact .inr (h ▸ List.mem_cons_self)
      · exact (ih h).imp_right (List.mem_cons_of_mem _)

theorem mem_erase {x : Node} {items : List Node} :
    x ∈ erase name items ↔ x ∈ items ∧ x.entityName ≠ some name := by
  simp [erase]

theorem names_erase (items : List Node) :
    names (erase name items) = (names items).filter fun n => decide (n ≠ name) := by
  induction items with
  | nil => rfl
  | cons n rest ih =>
    rw [erase] at ih ⊢
    cases hn : n.entityName with
    | none =>
      rw [List.filter_cons_of_pos (by simp [hn]), names_cons_of_none hn, names_cons_of_none hn, ih]
    | some other =>
      by_cases h : other = name
      · rw [List.filter_cons_of_neg (by simp [hn, h]), names_cons_of_some hn,
          List.filter_cons_of_neg (by simp [h]), ih]
      · rw [List.filter_cons_of_pos (by simp [hn, h]), names_cons_of_some hn,
          names_cons_of_some hn, List.filter_cons_of_pos (by simp [h]), ih]

theorem erase_of_absent {items : List Node} (h : name ∉ names items) : erase name items = items :=
  List.filter_eq_self.2 fun n hn => decide_eq_true fun he => h (mem_names.2 ⟨n, hn, he⟩)

theorem erase_length_ne_iff {items : List Node} :
    (erase name items).length ≠ items.length ↔ name ∈ names items := by
  rw [mem_names, ne_eq, erase, List.length_filter_eq_length_iff]
  simp

/-! ## Entities found by name -/

theorem put_find? {items : List Node} {n : Node} (h : find? name items = some n) :
    put name n items = items := by
  induction items with
  | nil => cases h
  | cons x rest ih =>
    rw [find?, List.find?_cons] at h
    by_cases hx : x.entityName = some name
    · simp only [hx, decide_true, Option.some.injEq] at h
      rw [put, if_pos hx, h]
    · simp only [hx, decide_false] at h
      rw [put, if_neg hx, ih h]

theorem find?_put {node : Node} (hn : node.entityName = some name) (items : List Node)
    (other : String) :
    find? other (put name node items) = if other = name then some node else find? other items := by
  split
  · rename_i h
    rw [h, find?_put_self hn]
  · rename_i h
    have hnode : node.entityName ≠ some other := fun he => h (Option.some.inj (he.symm.trans hn))
    induction items with
    | nil => simp [put, find?, hnode]
    | cons x rest ih =>
      rw [put]
      split
      · rename_i hx
        have hx' : x.entityName ≠ some other := fun he => h (Option.some.inj (he.symm.trans hx))
        simp [find?, hnode, hx']
      · simp only [find?, List.find?_cons] at ih ⊢
        rw [ih]

/-- Updates under two names commute, unless both are new and come last. -/
theorem put_comm {other : String} {a b : Node} (hne : name ≠ other)
    (ha : a.entityName = some name) (hb : b.entityName = some other) {items : List Node}
    (h : name ∈ names items) :
    put other b (put name a items) = put name a (put other b items) := by
  induction items with
  | nil => cases h
  | cons n rest ih =>
    by_cases hn : n.entityName = some name
    · simp [put, ha, hn, hne]
    · by_cases ho : n.entityName = some other
      · simp [put, hb, ho, hne.symm]
      · have hrest := mem_names_of_cons h hn
        simp [put, hn, ho, ih hrest]

theorem find?_erase (items : List Node) (other : String) :
    find? other (erase name items) = if other = name then none else find? other items := by
  split
  · rename_i h
    rw [find?_eq_none_iff, names_erase, List.mem_filter, h]
    simp
  · rename_i h
    rw [find?, find?, erase, List.find?_filter]
    congr 1
    funext n
    by_cases hn : n.entityName = some other
    · simp [hn, h]
    · simp [hn]

theorem allNamed_iff {items : List Node} :
    allNamed items = true ↔ ∀ n ∈ items, ∃ name, n.entityName = some name := by
  simp [allNamed, Option.isSome_iff_exists]

theorem find?_of_mem {items : List Node} (hd : (names items).Nodup) {n : Node} (hn : n ∈ items)
    (hname : n.entityName = some name) : find? name items = some n := by
  induction items with
  | nil => cases hn
  | cons x rest ih =>
    rcases List.mem_cons.1 hn with rfl | hrest
    · simp [find?, hname]
    · have hne : x.entityName ≠ some name := by
        intro hx
        rw [names_cons_of_some hx, List.nodup_cons] at hd
        exact hd.1 (mem_names.2 ⟨n, hrest, hname⟩)
      have hd' : (names rest).Nodup := hd.sublist ((List.sublist_cons_self x rest).filterMap _)
      have hfind := ih hd' hrest
      simp only [find?, List.find?_cons, hne, decide_false] at hfind ⊢
      exact hfind

end Entity
end SharedConfig
