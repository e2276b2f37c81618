import SharedConfig.Proofs.Merge

/-!
# SharedConfig.Proofs.Merge.Again

A merge that was made changes nothing when it is made again.

A new tree is held by a stored one where merging it in changes nothing (`Holds`).  A mapping holds
new entries if under each of their keys it holds their value, and a sequence holds new entities if
under each of their names it holds them; then the merge, which takes them one after the other, never
has anything to do.  Where no key and no name of the new tree stands twice, this is what a merge
leaves behind.

* `mergeNode_self`: a tree holds itself.
* `mergeNode_again`: the merged tree holds the new one.
* `merge_idempotent`: a second merge of the same tree finds nothing to do.
* `merge_answer_exact`: the answer of a merge is whether the tree is another one now.
-/

namespace SharedConfig

open Node

/-- Merging a new tree into a stored one changes nothing. -/
def Holds (table : StrategyTable) (path : String) (candidate stored : Node) : Prop :=
  mergeNode table path candidate stored = (stored, false)

theorem replaceItems_self (items : List Node) : replaceItems items items = (items, false) := by
  simp [replaceItems]

section Held

variable {table : StrategyTable} {path : String}

/-! ## What is held part by part -/

theorem mergeEntries_of_held {entries stored : Mapping}
    (h : ∀ e ∈ entries, ∃ v, stored.get? e.1.text = some v ∧
      Holds table (joinPath path e.1.text) e.2 v) :
    mergeEntries table path entries stored = (stored, false) := by
  induction entries with
  | nil => rw [mergeEntries]
  | cons e rest ih =>
    obtain ⟨key, value⟩ := e
    obtain ⟨⟨v, hv, hheld⟩, hrest⟩ := List.forall_mem_cons.1 h
    replace hheld : mergeNode table (joinPath path key.text) value v = (v, false) := hheld
    rw [mergeEntries, hv]
    dsimp only
    rw [hheld]
    dsimp only
    rw [Mapping.insert_get? key hv, ih hrest]
    rfl

theorem mergeItems_of_held {items stored : List Node}
    (h : ∀ n ∈ items, ∃ name v, n.entityName = some name ∧ Entity.find? name stored = some v ∧
      Holds table path n v) :
    mergeItems table path items stored = (stored, false) := by
  induction items with
  | nil => rw [mergeItems]
  | cons n rest ih =>
    obtain ⟨⟨name, v, hname, hv, hheld⟩, hrest⟩ := List.forall_mem_cons.1 h
    replace hheld : mergeNode table path n v = (v, false) := hheld
    rw [mergeItems, hname]
    dsimp only
    rw [hv]
    dsimp only
    rw [hheld]
    dsimp only
    rw [Entity.put_find? hv, ih hrest]
    rfl

theorem holds_of_replace (h : table.select path = .replace) (n : Node) : Holds table path n n := by
  rw [Holds, mergeNode_of_replace h, replaceBy_self]

theorem holds_scalar {s : Scalar} {stored : Node} (hs : table.select path = .merge)
    (ht : s.tag = none) (h : stored.core = .scalar s) : Holds table path (.scalar s) stored := by
  have hcore : stored.setCore (.scalar s) = stored := by rw [← h, setCore_core]
  rw [Holds, mergeNode, if_pos ⟨hs, ht⟩, h]
  dsimp only
  rw [replaceBy_self, hcore]

theorem holds_mapping {entries old : Mapping} {stored : Node} (hs : table.select path = .merge)
    (ho : stored.asMapping = some old)
    (h : ∀ e ∈ entries, ∃ v, old.get? e.1.text = some v ∧
      Holds table (joinPath path e.1.text) e.2 v) :
    Holds table path (.mapping entries) stored := by
  rw [Holds, mergeNode_mapping hs ho, mergeEntries_of_held h, setCore_asMapping ho]

/-- A sequence holds new items if they are its own, or if both are entities and it holds each. -/
theorem holds_sequence {items old : List Node} {stored : Node} (hs : table.select path = .merge)
    (ho : stored.asSequence = some old)
    (h : (Entity.allNamed old && Entity.allNamed items) = true →
      ∀ n ∈ items, ∃ name v, n.entityName = some name ∧ Entity.find? name old = some v ∧
        Holds table path n v)
    (hown : (Entity.allNamed old && Entity.allNamed items) = false → items = old) :
    Holds table path (.sequence items) stored := by
  rw [Holds, mergeNode, if_pos hs, asSequence_eq_some_iff.1 ho]
  dsimp only
  split
  · rename_i hnamed
    rw [mergeItems_of_held (h hnamed), setCore_asSequence ho]
  · rename_i hnamed
    rw [hown (Bool.eq_false_iff.2 hnamed), replaceItems_self, setCore_asSequence ho]

/-! ## A tree holds itself -/

theorem mergeNode_self {candidate : Node} (h : candidate.Unambiguous) (path : String) :
    Holds table path candidate candidate := by
  induction candidate using tree_induction generalizing path with
  | scalar s =>
    by_cases hs : table.select path = .merge ∧ s.tag = none
    · exact holds_scalar hs.1 hs.2 (by simp [core])
    · rw [Holds, mergeNode, if_neg hs, replaceBy_self]
  | tagged t n ih => rw [Holds, mergeNode, replaceBy_self]
  | sequence items ih =>
    obtain ⟨hnames, hitems⟩ := h.sequence
    cases hs : table.select path with
    | replace => exact holds_of_replace hs _
    | merge =>
      refine holds_sequence hs rfl (fun hnamed n hn => ?_) fun _ => rfl
      rw [Bool.and_self] at hnamed
      obtain ⟨name, hname⟩ := Entity.allNamed_iff.1 hnamed n hn
      exact ⟨name, n, hname, Entity.find?_of_mem hnames hn hname, ih n hn (hitems n hn) path⟩
  | mapping entries ih =>
    obtain ⟨hkeys, hvalues⟩ := unambiguous_mapping_iff.1 h
    cases hs : table.select path with
    | replace => exact holds_of_replace hs _
    | merge =>
      refine holds_mapping hs rfl fun e he => ?_
      exact ⟨e.2, Mapping.get?_of_mem hkeys he, ih e he (hvalues e he) _⟩

/-! ## The merged tree holds the new one -/

/-- Under each name of the new entities is the new one, reconciled with the stored one. -/
theorem find?_mergeItems {items : List Node} (hn : (Entity.names items).Nodup)
    (hd : ∀ n ∈ items, n.DistinctKeys) (old : List Node) (name : String) :
    Entity.find? name (mergeItems table path items old).1 =
      match Entity.find? name items with
      | none => Entity.find? name old
      | some n => some (reconcile n (Entity.find? name old) path table).1 := by
  induction items generalizing old with
  | nil => rw [mergeItems]; rfl
  | cons item rest ih =>
    obtain ⟨hitem, hrest⟩ := List.forall_mem_cons.1 hd
    cases hi : item.entityName with
    | none =>
      rw [Entity.names_cons_of_none hi] at hn
      rw [mergeItems_cons_of_none hi, ih hn hrest]
      simp [Entity.find?, hi]
    | some nm =>
      rw [Entity.names_cons_of_some hi, List.nodup_cons] at hn
      -- the items after this one have other names, so what it has put there stays
      have hput : (mergeItems table path (item :: rest) old).1 =
          (mergeItems table path rest (Entity.put nm
            (reconcile item (Entity.find? nm old) path table).1 old)).1 := by
        cases ho : Entity.find? nm old with
        | some o => rw [mergeItems_cons_of_find? hi ho]; rfl
        | none =>
          rw [mergeItems_cons_of_absent hi ho, Entity.put_of_absent (Entity.find?_eq_none_iff.1 ho)]
          rfl
      have hname := entityName_reconcile table path hitem hi old
      rw [hput, ih hn.2 hrest, Entity.find?_put hname]
      by_cases hnm : name = nm
      · subst hnm
        rw [Entity.find?_eq_none_iff.2 hn.1]
        simp [Entity.find?, hi]
      · have hne : item.entityName ≠ some name := fun he =>
          hnm (Option.some.inj (he.symm.trans hi))
        simp [Entity.find?, hne, hnm]

theorem allNamed_mergeItems {items old : List Node} (hi : Entity.allNamed items = true)
    (hd : ∀ n ∈ items, n.DistinctKeys) (ho : Entity.allNamed old = true) :
    Entity.allNamed (mergeItems table path items old).1 = true := by
  induction items generalizing old with
  | nil => rw [mergeItems]; exact ho
  | cons item rest ih =>
    obtain ⟨hitem, hrest⟩ := List.forall_mem_cons.1 hd
    obtain ⟨⟨name, hname⟩, hnames⟩ := List.forall_mem_cons.1 (Entity.allNamed_iff.1 hi)
    have hi' : Entity.allNamed rest = true := Entity.allNamed_iff.2 hnames
    cases hf : Entity.find? name old with
    | none =>
      rw [mergeItems_cons_of_absent hname hf]
      refine ih hi' hrest ?_
      simp [Entity.allNamed, List.all_append, hname] at ho ⊢
      exact ho
    | some o =>
      rw [mergeItems_cons_of_find? hname hf]
      refine ih hi' hrest (Entity.allNamed_iff.2 fun n hn => ?_)
      rcases Entity.mem_put hn with rfl | hn
      · exact ⟨name, entityName_mergeNode hitem hname (Entity.entityName_of_find? hf)⟩
      · exact Entity.allNamed_iff.1 ho n hn

/-- What was reconciled with a stored tree is held by the result. -/
theorem reconcile_again {candidate : Node} (h : candidate.Unambiguous)
    (hagain : ∀ stored, Holds table path candidate (mergeNode table path candidate stored).1)
    (existing : Option Node) :
    Holds table path candidate (reconcile candidate existing path table).1 := by
  cases existing with
  | none => exact mergeNode_self h path
  | some e => exact hagain e

theorem mergeNode_again {candidate : Node} (h : candidate.Unambiguous) (path : String)
    (stored : Node) : Holds table path candidate (mergeNode table path candidate stored).1 := by
  induction candidate using tree_induction generalizing path stored with
  | tagged t n ih => rw [mergeNode, replaceBy_fst]; exact mergeNode_self h path
  | scalar s =>
    by_cases hs : table.select path = .merge ∧ s.tag = none
    · exact holds_scalar hs.1 hs.2 (core_mergeNode_scalar s stored)
    · rw [mergeNode, if_neg hs, replaceBy_fst]
      exact mergeNode_self h path
  | sequence items ih =>
    obtain ⟨hnames, hitems⟩ := h.sequence
    have hd : ∀ n ∈ items, n.DistinctKeys := fun n hn => (hitems n hn).distinctKeys
    by_cases hmerge : table.select path = .merge ∧ stored.kind = .sequence
    · obtain ⟨old, ho⟩ := kind_eq_sequence_iff.1 hmerge.2
      rw [mergeNode_sequence hmerge.1 ho]
      refine holds_sequence hmerge.1 (asSequence_setCore _ _) (fun hnamed n hn => ?_)
        fun hnamed => ?_
      · rw [Bool.and_eq_true] at hnamed
        obtain ⟨name, hname⟩ := Entity.allNamed_iff.1 hnamed.2 n hn
        have hfound := Entity.find?_of_mem hnames hn hname
        split
        · refine ⟨name, _, hname, ?_, reconcile_again (hitems n hn) (ih n hn (hitems n hn) path)
            (Entity.find? name old)⟩
          rw [find?_mergeItems hnames hd, hfound]
        · exact ⟨name, n, hname, hfound, mergeNode_self (hitems n hn) path⟩
      -- entities that were merged into entities are entities, so the items are the new ones
      · split at hnamed
        · rename_i hboth
          rw [Bool.and_eq_true] at hboth
          rw [allNamed_mergeItems hboth.2 hd hboth.1, hboth.2] at hnamed
          cases hnamed
        · rename_i hboth
          rw [if_neg hboth]
    · rw [mergeNode_of_not_merged hmerge]
      exact mergeNode_self h path
  | mapping entries ih =>
    obtain ⟨hkeys, hvalues⟩ := unambiguous_mapping_iff.1 h
    by_cases hmerge : table.select path = .merge ∧ stored.kind = .mapping
    · obtain ⟨old, ho⟩ := kind_eq_mapping_iff.1 hmerge.2
      rw [mergeNode_mapping hmerge.1 ho]
      refine holds_mapping hmerge.1 (asMapping_setCore _ _) fun e he => ?_
      refine ⟨_, ?_, reconcile_again (hvalues e he) (ih e he (hvalues e he) _)
        (old.get? e.1.text)⟩
      rw [get?_mergeEntries hkeys, Mapping.get?_of_mem hkeys he]
    · rw [mergeNode_of_not_merged hmerge]
      exact mergeNode_self h path

/-- A tree that a merge leaves as it was held the new one before. -/
theorem holds_of_fixed {candidate : Node} (h : candidate.Unambiguous) {existing : Node}
    (hfixed : (mergeNode table path candidate existing).1 = existing) :
    Holds table path candidate existing := by
  have hagain : Holds table path candidate (mergeNode table path candidate existing).1 :=
    mergeNode_again h path existing
  rwa [hfixed] at hagain

end Held

/-! ## Merging twice, and the answer of a merge -/

/-- Under every table, a tree that was merged in finds nothing to do when it is merged in again, and
neither does a tree that is merged into itself. -/
theorem merge_idempotent (table : StrategyTable) (path : String) {candidate : Node}
    (h : candidate.Unambiguous) (existing : Node) :
    mergeNode table path candidate (mergeNode table path candidate existing).1 =
        ((mergeNode table path candidate existing).1, false) ∧
      mergeNode table path candidate candidate = (candidate, false) :=
  ⟨mergeNode_again h path existing, mergeNode_self h path⟩

/-- Entities and a tagged scalar, merged into a tagged tree; what is under one key is replaced. -/
theorem merge_idempotent_below_tags :
    let table := StrategyTable.ofList [("p.r", .replace)]
    let candidate : Node := .mapping [
      (.string "s", .sequence [
        .mapping [(.string "name", .string "b"), (.string "k", .scalar ⟨"2", .int, none⟩)],
        .mapping [(.string "name", .string "a"), (.string "k", .scalar ⟨"x", .str, some "t"⟩)]]),
      (.string "r", .mapping [(.string "y", .sequence [.string "name"])])]
    let existing : Node := .tagged "u" (.mapping [
      (.string "r", .mapping [(.string "z", .string "old")]),
      (⟨"s", .str, some "t"⟩, .tagged "v" (.sequence [
        .mapping [(.string "name", .string "a"), (.string "z", .string "kept")]]))])
    let merged : Node := .tagged "u" (.mapping [
      (.string "r", .mapping [(.string "y", .sequence [.string "name"])]),
      (⟨"s", .str, some "t"⟩, .tagged "v" (.sequence [
        .mapping [(.string "name", .string "a"), (.string "z", .string "kept"),
          (.string "k", .scalar ⟨"x", .str, some "t"⟩)],
        .mapping [(.string "name", .string "b"), (.string "k", .scalar ⟨"2", .int, none⟩)]]))])
    candidate.Unambiguous ∧ mergeNode table "p" candidate existing = (merged, true) ∧
      mergeNode table "p" candidate merged = (merged, false) ∧
      mergeNode table "p" candidate candidate = (candidate, false) := by
  intro table candidate existing merged
  have hcandidate : candidate.Unambiguous := by decide
  have hmerged : mergeNode table "p" candidate existing = (merged, true) := by decide
  obtain ⟨hagain, hself⟩ := merge_idempotent table "p" hcandidate existing
  rw [hmerged] at hagain
  exact ⟨hcandidate, hmerged, hagain, hself⟩

/-- A merge that answers no has left the tree as it was, and one that answers yes has made another
one of it if no key and no name of the new tree stands twice. -/
theorem merge_answer_exact (table : StrategyTable) (path : String) (candidate existing : Node) :
    ((mergeNode table path candidate existing).2 = false →
        (mergeNode table path candidate existing).1 = existing) ∧
      (candidate.Unambiguous → (mergeNode table path candidate existing).2 = true →
        (mergeNode table path candidate existing).1 ≠ existing) := by
  refine ⟨mergeNode_unchanged table candidate path existing, fun h hchanged hfixed => ?_⟩
  -- what is left as it was is merged into as if for the second time
  have hheld : mergeNode table path candidate existing = (existing, false) :=
    holds_of_fixed h hfixed
  rw [hheld] at hchanged
  cases hchanged

/-- Only the kind of one scalar differs, below a tag and in an entity. -/
theorem merge_answer_exact_for_kind :
    let candidate : Node := .mapping [(.string "s", .sequence [
      .mapping [(.string "name", .string "a"), (.string "k", .string "1")]])]
    let existing : Node := .mapping [(.string "s", .tagged "t" (.sequence [
      .mapping [(.string "name", .string "a"), (.string "k", .scalar ⟨"1", .int, none⟩)]]))]
    candidate.Unambiguous ∧ (mergeNode .empty "" candidate existing).2 = true ∧
      (mergeNode .empty "" candidate existing).1 ≠ existing := by
  intro candidate existing
  have hcandidate : candidate.Unambiguous := by decide
  have hchanged : (mergeNode .empty "" candidate existing).2 = true := by decide
  exact ⟨hcandidate, hchanged, (merge_answer_exact .empty "" candidate existing).2 hcandidate hchanged⟩

-- of two keys of one text the second one undoes what the first one did
example :
    let existing : Node := .mapping [(.string "1", .string "y")]
    let candidate : Node :=
      .mapping [(.string "1", .string "x"), (⟨"1", .int, none⟩, .string "y")]
    mergeNode .empty "" candidate existing = (existing, true) := by
  decide

end SharedConfig
