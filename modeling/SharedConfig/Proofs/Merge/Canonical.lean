import SharedConfig.Proofs.Canonical
import SharedConfig.Proofs.Merge

/-!
# SharedConfig.Proofs.Merge.Canonical

A merge of what comes back from its value into what does.

The new tree has untagged texts as its keys.  Such a key either is among the stored ones by its text,
and then they stay as they are, or no stored key is equal to it as a value; so no two keys of the
merged mapping become one when it is written.

* `IsPlain`: the trees that can be merged into any other.
* `isCanonical_mergeEntries`: mappings, key by key.
* `isCanonical_mergeNode`: whole trees, whatever the table says.
-/

namespace SharedConfig

open Node

namespace Node

/-! ## New trees -/

/-- Whether a node is no mapping with a key that is not an untagged text. -/
def hasTextKeys : Node → Bool
  | .mapping m => m.all fun e => decide (e.1 = .string e.1.text)
  | _ => true

/-- A tree that comes back and has no keys but untagged texts. -/
structure IsPlain (n : Node) : Prop where
  canonical : n.IsCanonical
  keys : n.all hasTextKeys = true

theorem isPlain_scalar {s : Scalar} (h : (Node.scalar s).IsCanonical) : (Node.scalar s).IsPlain :=
  ⟨h, rfl⟩

theorem isPlain_sequence_iff {items : List Node} :
    (Node.sequence items).IsPlain ↔ ∀ n ∈ items, n.IsPlain := by
  constructor
  · intro h n hn
    have hkeys := h.keys
    simp only [all, hasTextKeys, Bool.true_and, allItems_iff] at hkeys
    exact ⟨isCanonical_sequence_iff.1 h.canonical n hn, hkeys n hn⟩
  · intro h
    refine ⟨isCanonical_sequence_iff.2 fun n hn => (h n hn).canonical, ?_⟩
    simp only [all, hasTextKeys, Bool.true_and, allItems_iff]
    exact fun n hn => (h n hn).keys

/-- The keys of a mapping are untagged texts, and under them are trees that are plain. -/
def PlainEntries (m : Mapping) : Prop := ∀ e ∈ m, e.1 = .string e.1.text ∧ e.2.IsPlain

theorem PlainEntries.append {a b : Mapping} (ha : PlainEntries a) (hb : PlainEntries b) :
    PlainEntries (a ++ b) :=
  List.forall_mem_append.2 ⟨ha, hb⟩

theorem IsPlain.entries {m : Mapping} (h : (Node.mapping m).IsPlain) : PlainEntries m := by
  intro e he
  have hkeys := h.keys
  simp only [all, hasTextKeys, Bool.and_eq_true, List.all_eq_true, decide_eq_true_eq,
    allEntries_iff] at hkeys
  exact ⟨hkeys.1 e he, (isCanonical_mapping_iff.1 h.canonical).2 e he, hkeys.2 e he⟩

theorem canonicalKeys_of_texts {keys : List Scalar} (htexts : ∀ k ∈ keys, k = .string k.text)
    (hd : (keys.map Scalar.text).Nodup) : CanonicalKeys keys := by
  have heach : ∀ k ∈ keys, (Node.scalar k).IsCanonical := by
    intro k hk
    rw [htexts k hk]
    exact isCanonical_string k.text
  refine ⟨heach, (List.pairwise_map.1 hd).imp_of_mem ?_⟩
  intro a b ha hb hne
  refine Bool.eq_false_iff.2 fun hsame => hne ?_
  rw [htexts b hb] at hsame
  have hab : a = .string b.text := eq_string_of_same (heach a ha) hsame
  rw [hab, Scalar.text_string]

theorem isPlain_mapping {m : Mapping} (hd : m.keys.Nodup) (h : PlainEntries m) :
    (Node.mapping m).IsPlain := by
  have hkeys : CanonicalKeys (m.map Prod.fst) := by
    refine canonicalKeys_of_texts (List.forall_mem_map.2 fun e he => (h e he).1) ?_
    rwa [← Mapping.keys_eq_map]
  refine ⟨isCanonical_mapping_iff.2 ⟨hkeys, fun e he => (h e he).2.canonical⟩, ?_⟩
  simp only [all, hasTextKeys, Bool.and_eq_true, List.all_eq_true, decide_eq_true_eq,
    allEntries_iff]
  exact ⟨fun e he => (h e he).1, fun e he => (h e he).2.keys⟩

end Node

/-! ## Merges -/

section Merge

variable {table : StrategyTable} {path : String}

theorem isCanonical_reconcile {candidate : Node} {existing : Option Node}
    (hc : candidate.IsCanonical)
    (hmerge : ∀ e, e.IsCanonical → (mergeNode table path candidate e).1.IsCanonical)
    (he : ∀ e, existing = some e → e.IsCanonical) :
    (reconcile candidate existing path table).1.IsCanonical := by
  cases existing with
  | none => exact hc
  | some e => exact hmerge e (he e rfl)

theorem isCanonical_mergeEntries {entries old : Mapping}
    (hn : ∀ e ∈ entries, e.1 = .string e.1.text ∧ e.2.IsCanonical ∧ ∀ path o, o.IsCanonical →
      (mergeNode table path e.2 o).1.IsCanonical)
    (ho : (Node.mapping old).IsCanonical) :
    (Node.mapping (mergeEntries table path entries old).1).IsCanonical := by
  induction entries generalizing old with
  | nil => rw [mergeEntries]; exact ho
  | cons e rest ih =>
    obtain ⟨key, value⟩ := e
    obtain ⟨⟨hkey, hvalue, hmerge⟩, hrest⟩ := List.forall_mem_cons.1 hn
    replace hkey : key = .string key.text := hkey
    have hnew : (reconcile value (old.get? key.text) (joinPath path key.text) table).1.IsCanonical :=
      isCanonical_reconcile hvalue (hmerge _) fun _ he => ho.get? he
    rw [mergeEntries_cons]
    refine ih hrest ?_
    rw [hkey]
    exact ho.insert key.text hnew

theorem isCanonical_mergeNode (table : StrategyTable) (path : String) {candidate existing : Node}
    (hc : candidate.IsPlain) (he : existing.IsCanonical) :
    (mergeNode table path candidate existing).1.IsCanonical := by
  induction candidate using tree_induction generalizing path existing with
  | tagged t n _ =>
    rw [mergeNode_of_tag (by simp [tag]), replaceBy_fst]
    exact hc.canonical
  | scalar s =>
    by_cases hmerged : table.select path = .merge ∧ existing.kind = .scalar
    · obtain ⟨e, rfl⟩ := he.eq_scalar hmerged.2
      rw [mergeNode_scalar]
      exact hc.canonical
    · rw [mergeNode_of_not_merged hmerged]
      exact hc.canonical
  | sequence items ih =>
    by_cases hmerged : table.select path = .merge ∧ existing.kind = .sequence
    · obtain ⟨old, hold⟩ := kind_eq_sequence_iff.1 hmerged.2
      have hitems := isPlain_sequence_iff.1 hc
      rw [mergeNode_sequence hmerged.1 hold]
      refine he.setSequence ?_
      split
      · refine forall_mem_mergeItems ?_ (isCanonical_sequence_iff.1 (he.asSequence hold))
        intro n hn
        exact ⟨(hitems n hn).canonical, fun o ho => ih n hn path (hitems n hn) ho⟩
      · exact isCanonical_sequence_iff.1 hc.canonical
    · rw [mergeNode_of_not_merged hmerged]
      exact hc.canonical
  | mapping entries ih =>
    by_cases hmerged : table.select path = .merge ∧ existing.kind = .mapping
    · obtain ⟨old, hold⟩ := kind_eq_mapping_iff.1 hmerged.2
      have hentries := hc.entries
      rw [mergeNode_mapping hmerged.1 hold]
      refine he.setMapping (isCanonical_mergeEntries ?_ (he.asMapping hold))
      intro e hmem
      obtain ⟨hkey, hplain⟩ := hentries e hmem
      exact ⟨hkey, hplain.canonical, fun path o ho => ih e hmem path hplain ho⟩
    · rw [mergeNode_of_not_merged hmerged]
      exact hc.canonical

end Merge

end SharedConfig
