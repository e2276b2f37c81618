import SharedConfig.Proofs.Merge

/-!
# SharedConfig.Proofs.Merge.Places

The merged tree, place by place.  A place is a list of keys; it is followed through the first entry
with each key and through tags.

`merge_places` is the law for all places that the merge can be followed to (`MergesAlong`): above
them the table merges, the stored tree has mappings, and the new one has untagged mappings.

* What only one of the two trees has at a place is kept as it is (nothing stored is lost, nothing new
  is changed).
* A replaced place, a place of another shape and a scalar are taken from the new tree.
* Where an untagged collection meets one of its shape, the stored tags, keys and names stay in their
  order (`KeepsCollection`); a tagged one takes the place of what is stored.
-/

namespace SharedConfig

open Node

/-- The dotted path of a place, from the dotted path of the root. -/
def dottedFrom (path : String) (place : List String) : String := place.foldl joinPath path

/-- A merge goes on down to a place: before its end the table merges, the stored tree has mappings
and the new one has untagged mappings. -/
def MergesAlong (table : StrategyTable) (path : String) (existing candidate : Node)
    (place : List String) : Prop :=
  ∀ p, p <+: place → p ≠ place →
    table.select (dottedFrom path p) = .merge ∧
    (∃ n, existing.at? p = some n ∧ n.kind = .mapping) ∧
    ∃ entries, candidate.at? p = some (.mapping entries)

/-- A stored collection that a new one of its shape was merged into.  The tags stay; stored keys
stay as and where they are, before new ones; so do stored entities, and other items are the new
ones. -/
structure KeepsCollection (stored new merged : Node) : Prop where
  kind : merged.kind = stored.kind
  tags : merged.tags = stored.tags
  keys : ∀ old entries, stored.asMapping = some old → new.asMapping = some entries →
    ∃ m, merged.asMapping = some m ∧ m.map Prod.fst =
      old.map Prod.fst ++ (entries.map Prod.fst).filter fun k => decide (k.text ∉ old.keys)
  entities : ∀ old items, stored.asSequence = some old → new.asSequence = some items →
    (Entity.allNamed old && Entity.allNamed items) = true →
    ∃ m, merged.asSequence = some m ∧ Entity.names m =
      Entity.names old ++ (Entity.names items).filter fun n => decide (n ∉ Entity.names old)
  items : ∀ old items, stored.asSequence = some old → new.asSequence = some items →
    (Entity.allNamed old && Entity.allNamed items) = false → merged.asSequence = some items

section

variable {table : StrategyTable} {path : String}

theorem MergesAlong.tail {e c : Node} {key : String} {rest : List String}
    (h : MergesAlong table path e c (key :: rest)) {x v : Node} (hx : e.child? key = some x)
    (hv : c.child? key = some v) : MergesAlong table (joinPath path key) x v rest := by
  intro p hp hne
  have hp' := h (key :: p) (List.cons_prefix_cons.2 ⟨rfl, hp⟩) fun heq => hne (List.cons.inj heq).2
  rwa [at?_cons, at?_cons, hx, hv] at hp'

/-- At a place that the merge can be followed to, what is new is reconciled with what is stored. -/
theorem at?_mergeNode {place : List String} {existing candidate : Node}
    (hc : candidate.Unambiguous) (h : MergesAlong table path existing candidate place) :
    (mergeNode table path candidate existing).1.at? place =
      match candidate.at? place with
      | none => existing.at? place
      | some v => some (reconcile v (existing.at? place) (dottedFrom path place) table).1 := by
  induction place generalizing path existing candidate with
  | nil => rfl
  | cons key rest ih =>
    obtain ⟨hs, ⟨n, hn, hk⟩, entries, he⟩ := h [] (List.nil_prefix) (by simp)
    cases hn
    cases he
    replace hs : table.select path = .merge := hs
    obtain ⟨old, ho⟩ := kind_eq_mapping_iff.1 hk
    have hold : existing.child? key = old.get? key := child?_of_asMapping ho key
    have hnew : (Node.mapping entries).child? key = Mapping.get? entries key := rfl
    rw [at?_cons, at?_cons, at?_cons, mergeNode_mapping hs ho, child?_setCore,
      get?_mergeEntries (hc.distinctKeys _ rfl), hold, hnew]
    cases hv : Mapping.get? entries key with
    | none => rfl
    | some v =>
      cases hx : old.get? key with
      | none =>
        simp only [reconcile, Option.bind_some, Option.bind_none]
        cases v.at? rest <;> rfl
      | some x =>
        simp only [Option.bind_some, reconcile]
        exact ih (all_of_child? hc (hnew.trans hv)) (h.tail (hold.trans hx) (hnew.trans hv))

/-- An untagged collection that is merged into one of its shape keeps what is stored. -/
theorem keepsCollection_mergeNode {candidate existing : Node} (hc : candidate.Unambiguous)
    (hs : table.select path = .merge) (hk : candidate.kind = existing.kind)
    (hcoll : candidate.kind ≠ .scalar) (ht : candidate.tag = none) :
    KeepsCollection existing candidate (mergeNode table path candidate existing).1 := by
  cases candidate with
  | scalar s => exact absurd rfl hcoll
  | tagged t n => cases ht
  | mapping entries =>
    obtain ⟨old, ho⟩ := kind_eq_mapping_iff.1 hk.symm
    rw [mergeNode_mapping hs ho]
    constructor
    · rw [kind_setCore]; exact hk
    · rw [tags_setCore]; exact List.append_nil _
    · intro old' entries' ho' he'
      rw [ho] at ho'
      cases ho'
      cases he'
      exact ⟨_, asMapping_setCore _ _, map_fst_mergeEntries (hc.distinctKeys _ rfl) old⟩
    · intro _ _ _ he; cases he
    · intro _ _ _ he; cases he
  | sequence items =>
    obtain ⟨old, ho⟩ := kind_eq_sequence_iff.1 hk.symm
    rw [mergeNode_sequence hs ho]
    have hparts : (Entity.names items).Nodup ∧ allItems hasDistinctParts items = true := by
      simpa [Unambiguous, Node.all, hasDistinctParts] using hc
    constructor
    · rw [kind_setCore]; exact hk
    · rw [tags_setCore]; exact List.append_nil _
    · intro _ _ _ he; cases he
    · intro old' items' ho' hi' hnamed
      rw [ho] at ho'
      cases ho'
      cases hi'
      rw [if_pos hnamed]
      refine ⟨_, asSequence_setCore _ _, names_mergeItems hparts.1 (fun n hn => ?_) old⟩
      exact Unambiguous.distinctKeys (all_of_mem hparts.2 hn)
    · intro old' items' ho' hi' hnamed
      rw [ho] at ho'
      cases ho'
      cases hi'
      rw [if_neg (by simp [hnamed]), asSequence_setCore]
      rfl

/-- The merged tree at every place that the merge can be followed to. -/
theorem merge_places {existing candidate : Node} (hc : candidate.Unambiguous)
    {place : List String} (h : MergesAlong table path existing candidate place) :
    let merged := (mergeNode table path candidate existing).1
    (candidate.at? place = none → merged.at? place = existing.at? place) ∧
    (existing.at? place = none → merged.at? place = candidate.at? place) ∧
    ∀ v x, candidate.at? place = some v → existing.at? place = some x →
      (table.select (dottedFrom path place) = .replace ∨ v.kind ≠ x.kind ∨
          (∃ s e, v = .scalar s ∧ x = .scalar e) → merged.at? place = some v) ∧
      (table.select (dottedFrom path place) = .merge → v.kind = x.kind → v.kind ≠ .scalar →
        (v.tag ≠ none → merged.at? place = some v) ∧
        (v.tag = none → ∃ y, merged.at? place = some y ∧ KeepsCollection x v y)) := by
  intro merged
  have hlaw := at?_mergeNode hc h
  refine ⟨fun hnone => ?_, fun hnone => ?_, fun v x hv hx => ⟨?_, fun hs hk hcoll => ⟨?_, ?_⟩⟩⟩
  · rw [hnone] at hlaw
    exact hlaw
  · rw [hnone] at hlaw
    refine hlaw.trans ?_
    cases candidate.at? place <;> rfl
  all_goals
    rw [hv, hx] at hlaw
    simp only [reconcile] at hlaw
  · intro hcase
    refine hlaw.trans (congrArg some ?_)
    rcases hcase with hr | hk | ⟨s, e, rfl, rfl⟩
    · rw [mergeNode_of_replace hr, replaceBy_fst]
    · rw [mergeNode_of_kind_ne hk, replaceBy_fst]
    · exact mergeNode_scalar s e
  · intro ht
    refine hlaw.trans (congrArg some ?_)
    rw [mergeNode_of_tag ht, replaceBy_fst]
  · intro ht
    exact ⟨_, hlaw, keepsCollection_mergeNode (all_of_at? hc hv) hs hk hcoll ht⟩

/-- A field that only the stored tree has, below a tag, stays in a merge with new fields. -/
theorem merge_places_below_tag :
    let stored : Node := .mapping [(.string "opts", .tagged "Ext" (.mapping [(.string "a", .string "1")]))]
    let new : Node := .mapping [(.string "opts", .mapping [(.string "b", .string "2")])]
    new.Unambiguous ∧ MergesAlong .empty "contexts" stored new ["opts", "a"] ∧
      (mergeNode .empty "contexts" new stored).1.at? ["opts", "a"] = some (.string "1") := by
  intro stored new
  have hnew : new.Unambiguous := by decide
  have halong : MergesAlong .empty "contexts" stored new ["opts", "a"] := by
    intro p hp hne
    simp only [List.prefix_cons_iff, List.prefix_nil] at hp
    rcases hp with rfl | ⟨_, rfl, rfl | ⟨_, rfl, rfl⟩⟩
    · exact ⟨rfl, ⟨stored, rfl, rfl⟩, _, rfl⟩
    · exact ⟨rfl, ⟨_, rfl, rfl⟩, _, rfl⟩
    · exact absurd rfl hne
  exact ⟨hnew, halong, (merge_places hnew halong).1 rfl⟩

end

end SharedConfig
