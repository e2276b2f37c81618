import SharedConfig.Proofs.Decoding
import SharedConfig.Proofs.Merge.Strategies

/-!
# SharedConfig.Proofs.Form

Forms of trees that stay what they are when trees are merged field by field.

A form is a property of trees that a merge keeps: if both trees have it, so has the merged one.
Forms are put together like the readers of records are, from texts and flags over lists to records
with a form for each field; so whatever is merged from trees that records were encoded as, it has
the form of such a tree.

* `mergeNode_path`: where nothing is replaced, the path of a merge does not matter.
* `Form.record`, `Form.list`, `Form.dictionary`: forms made of forms.
* `Form.reconciled`: what a new tree of a form is reconciled to has that form.
-/

namespace SharedConfig

open Node Yaml

/-! ## Merges that replace nothing -/

theorem mergeNode_path (p q : String) (candidate existing : Node) :
    mergeNode .empty p candidate existing = mergeNode .empty q candidate existing := by
  have halike : SelectAlike .empty p .empty q := fun _ => rfl
  exact mergeNode_congr halike candidate existing

/-! ## Forms -/

/-- A property of trees that a merge keeps where nothing is replaced. -/
structure Form where
  Holds : Node → Prop
  merged : ∀ path candidate existing, Holds candidate → Holds existing →
    Holds (mergeNode .empty path candidate existing).1

theorem Form.reconciled (f : Form) (path : String) {candidate : Node} (hc : f.Holds candidate)
    {existing : Option Node} (he : ∀ e, existing = some e → f.Holds e) :
    f.Holds (reconcile candidate existing path .empty).1 := by
  cases existing with
  | none => exact hc
  | some e => exact f.merged path candidate e hc (he e rfl)

/-- The keys of a mapping are untagged texts, and what is under a key is as it says. -/
def EntriesAre (p : String → Node → Prop) (m : Mapping) : Prop :=
  ∀ e ∈ m, e.1 = .string e.1.text ∧ p e.1.text e.2

section Merged

variable {table : StrategyTable} {p : Scalar → Node → Prop} {path : String}

/-- An entry that is written is new, or it is under the stored key of its text. -/
theorem forall_mem_insert_reconcile {key : Scalar} {v : Node} {m : Mapping} (hv : p key v)
    (hmerge : ∀ k o, k.text = key.text → p k o → p k (mergeNode table path v o).1)
    (hm : ∀ e ∈ m, p e.1 e.2) :
    ∀ e ∈ m.insert key (reconcile v (m.get? key.text) path table).1, p e.1 e.2 := by
  induction m with
  | nil => exact List.forall_mem_singleton.2 hv
  | cons e m ih =>
    obtain ⟨k, o⟩ := e
    obtain ⟨hko, hrest⟩ := List.forall_mem_cons.1 hm
    rw [Mapping.insert, Mapping.get?_cons]
    by_cases hk : k.text = key.text
    · rw [if_pos hk, if_pos hk]
      exact List.forall_mem_cons.2 ⟨hmerge k o hk hko, hrest⟩
    · rw [if_neg hk, if_neg hk]
      exact List.forall_mem_cons.2 ⟨hko, ih hrest⟩

theorem forall_mem_mergeEntries {entries old : Mapping}
    (hn : ∀ e ∈ entries, p e.1 e.2 ∧ ∀ path k o, k.text = e.1.text → p k o →
      p k (mergeNode table path e.2 o).1) (ho : ∀ e ∈ old, p e.1 e.2) :
    ∀ e ∈ (mergeEntries table path entries old).1, p e.1 e.2 := by
  induction entries generalizing old with
  | nil => rw [mergeEntries]; exact ho
  | cons e rest ih =>
    obtain ⟨key, value⟩ := e
    obtain ⟨⟨hv, hmerge⟩, hrest⟩ := List.forall_mem_cons.1 hn
    rw [mergeEntries_cons]
    exact ih hrest (forall_mem_insert_reconcile hv (hmerge _) ho)

end Merged

theorem EntriesAre.merged {p : String → Node → Prop}
    (hp : ∀ key path c e, p key c → p key e → p key (mergeNode .empty path c e).1)
    {entries old : Mapping} (hn : EntriesAre p entries) (ho : EntriesAre p old) (path : String) :
    EntriesAre p (mergeEntries .empty path entries old).1 := by
  refine forall_mem_mergeEntries (p := fun k v => k = .string k.text ∧ p k.text v)
    (fun e he => ⟨hn e he, fun path' k o hk hko => ⟨hko.1, ?_⟩⟩) ho
  rw [hk] at hko ⊢
  exact hp _ path' e.2 o (hn e he).2 hko.2

theorem keys_subset_mergeEntries {table : StrategyTable} {path : String} (entries old : Mapping) :
    ∀ key ∈ old.keys, key ∈ (mergeEntries table path entries old).1.keys := by
  induction entries generalizing old with
  | nil => rw [mergeEntries]; exact fun key h => h
  | cons e rest ih =>
    intro key hkey
    rw [mergeEntries_cons]
    refine ih _ key ?_
    rw [Mapping.keys_insert]
    split
    · exact hkey
    · exact List.mem_append_left _ hkey

/-- Whether a node is no collection under a tag. -/
def Node.isBare : Node → Bool
  | .tagged _ _ => false
  | _ => true

section Tags

variable {p : Node → Bool} (htags : ∀ t a b, p (.tagged t a) = p (.tagged t b))

include htags

theorem all_setCore {n new : Node} (hn : n.all p = true) (hnew : new.all p = true) :
    (n.setCore new).all p = true := by
  induction n using tagged_induction with
  | tagged t n ih =>
    simp only [all, Bool.and_eq_true] at hn
    simp only [setCore_tagged, all, Bool.and_eq_true]
    exact ⟨htags t n (n.setCore new) ▸ hn.1, ih hn.2⟩
  | _ => exact hnew

/-- What is asked of the tags in a tree holds of a merged tree if it holds of both. -/
theorem all_mergeNode (hbare : ∀ n, n.isBare = true → p n = true) {table : StrategyTable}
    {candidate existing : Node} (hc : candidate.all p = true) (he : existing.all p = true)
    (path : String) : (mergeNode table path candidate existing).1.all p = true := by
  induction candidate using tree_induction generalizing path existing with
  | tagged t n ih => rw [mergeNode, replaceBy_fst]; exact hc
  | scalar s =>
    rw [mergeNode]
    split
    · split
      · exact all_setCore htags he (by rw [replaceBy_fst]; exact hc)
      · rw [replaceBy_fst]; exact hc
    · rw [replaceBy_fst]; exact hc
  | sequence items ih =>
    by_cases hmerge : table.select path = .merge ∧ existing.kind = .sequence
    · obtain ⟨old, ho⟩ := kind_eq_sequence_iff.1 hmerge.2
      rw [mergeNode_sequence hmerge.1 ho]
      refine all_setCore htags he ?_
      have hself : ∀ items, p (.sequence items) = true := fun items => hbare _ rfl
      simp only [all, hself, Bool.true_and, allItems_iff] at hc ⊢
      split
      · exact forall_mem_mergeItems (fun n hn => ⟨hc n hn, fun o ho => ih n hn (hc n hn) ho path⟩)
          (allItems_iff.1 (all_of_asSequence he ho).2)
      · exact hc
    · rw [mergeNode_of_not_merged hmerge]
      exact hc
  | mapping entries ih =>
    by_cases hmerge : table.select path = .merge ∧ existing.kind = .mapping
    · obtain ⟨old, ho⟩ := kind_eq_mapping_iff.1 hmerge.2
      rw [mergeNode_mapping hmerge.1 ho]
      refine all_setCore htags he ?_
      have hself : ∀ m, p (.mapping m) = true := fun m => hbare _ rfl
      simp only [all, hself, Bool.true_and, allEntries_iff] at hc ⊢
      have hvalues : ∀ e ∈ old, e.2.all p = true := allEntries_iff.1 (all_of_asMapping he ho).2
      exact forall_mem_mergeEntries (p := fun _ v => v.all p = true)
        (fun e h => ⟨hc e h, fun path _ o _ ho => ih e h (hc e h) ho path⟩) hvalues
    · rw [mergeNode_of_not_merged hmerge]
      exact hc

end Tags

namespace Form

def scalar (p : Scalar → Prop) : Form where
  Holds n := ∃ s, n = .scalar s ∧ p s
  merged := by
    rintro path _ _ ⟨s, rfl, hs⟩ ⟨e, rfl, -⟩
    exact ⟨s, mergeNode_scalar s e, hs⟩

def text : Form := scalar fun s => ∃ t, s = .string t

def flag : Form where
  Holds n := ∃ b, n = boolNode b
  merged := by
    rintro path _ _ ⟨b, rfl⟩ ⟨c, rfl⟩
    exact ⟨b, mergeNode_scalar _ _⟩

/-- The trees without a collection under a tag. -/
def bare : Form where
  Holds n := n.all isBare = true
  merged path _ _ hc he := all_mergeNode (fun _ _ _ => rfl) (fun _ h => h) hc he path

def list (f : Form) : Form where
  Holds n := ∃ items, n = .sequence items ∧ ∀ x ∈ items, f.Holds x
  merged := by
    rintro path _ _ ⟨items, rfl, hn⟩ ⟨old, rfl, ho⟩
    rw [mergeNode_sequence (StrategyTable.select_empty path) rfl]
    refine ⟨_, rfl, ?_⟩
    split
    · exact forall_mem_mergeItems
        (fun n h => ⟨hn n h, fun o ho => f.merged path n o (hn n h) ho⟩) ho
    · exact hn

/-- The mappings whose entries are as they should be, with some keys that have to be there. -/
def entries (p : String → Node → Prop)
    (hp : ∀ key path c e, p key c → p key e → p key (mergeNode .empty path c e).1)
    (required : List String) : Form where
  Holds n := ∃ m, n = .mapping m ∧ (∀ key ∈ required, key ∈ Mapping.keys m) ∧ EntriesAre p m
  merged := by
    rintro path _ _ ⟨m, rfl, -, hn⟩ ⟨old, rfl, hkeys, ho⟩
    rw [mergeNode_mapping (StrategyTable.select_empty path) rfl]
    exact ⟨_, rfl, fun key h => keys_subset_mergeEntries m old key (hkeys key h),
      hn.merged hp ho path⟩

/-- The mappings from texts to trees of a form. -/
def dictionary (f : Form) : Form := entries (fun _ => f.Holds) (fun _ => f.merged) []

/-- The records with some fields: no key stands twice, and what is under a key has the form of that
field. -/
def record (fields : List (String × Form)) (required : List String) : Form where
  Holds n := n.DistinctKeys ∧ (entries (fun key v => ∃ f, fields.lookup key = some f ∧ f.Holds v)
    (by
      rintro key path c e ⟨f, hf, hc⟩ ⟨f', hf', he⟩
      cases hf.symm.trans hf'
      exact ⟨f, hf, f.merged path c e hc he⟩) required).Holds n
  merged path c e hc he :=
    ⟨distinctKeys_mergeNode hc.1 he.1, Form.merged _ path c e hc.2 he.2⟩

/-- The mappings with a certain text under a key, and with no key twice. -/
def withText (key s : String) : Form where
  Holds n := n.DistinctKeys ∧ ∃ m, n = .mapping m ∧ Mapping.get? m key = some (.string s)
  merged := by
    rintro path _ _ ⟨hd, m, rfl, hm⟩ ⟨hold, old, rfl, ho⟩
    refine ⟨distinctKeys_mergeNode hd hold, (mergeEntries .empty path m old).1, ?_, ?_⟩
    · rw [mergeNode_mapping (StrategyTable.select_empty path) rfl]
      rfl
    · rw [get?_mergeEntries (hd m rfl), hm, ho]
      exact congrArg some (mergeNode_scalar _ _)

end Form

end SharedConfig
