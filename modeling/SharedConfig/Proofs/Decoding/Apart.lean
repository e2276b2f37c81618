import SharedConfig.Proofs.Decoding.Parts
import SharedConfig.Proofs.Merge.Canonical

/-!
# SharedConfig.Proofs.Decoding.Apart

Mappings in which no two keys are equal as values.

The value of such a mapping has an entry for each of its own, in their order
(`EntriesOf.of_toEntries?`).  Two keys may still have one text, when one of them is tagged; but then
a record is read from the mapping only if that text is the name of none of its fields.

* `ApartKeys.keptByText`: what is under a key of the tree is under its text in the value.
* `count_le_one_of_readFields`: the name of a field that was read stands once.
* `Mapping.KeysApart.merged`: new text keys stay apart from those of a stored mapping.
-/

namespace SharedConfig

open Node Yaml

/-- No two keys are equal as values. -/
def Mapping.KeysApart (m : Mapping) : Prop :=
  (m.map Prod.fst).Pairwise fun a b => a.toValue.same b.toValue = false

instance (m : Mapping) : Decidable m.KeysApart :=
  inferInstanceAs
    (Decidable ((m.map Prod.fst).Pairwise fun a b => a.toValue.same b.toValue = false))

namespace Node

def hasKeysApart : Node → Bool
  | .mapping m => decide (Mapping.KeysApart m)
  | _ => true

/-- In no mapping of the tree are two keys equal as values. -/
abbrev KeysApart (n : Node) : Prop := n.all hasKeysApart = true

/-- No two keys of the mapping that a node is are equal as values. -/
def ApartKeys (n : Node) : Prop := ∀ m, n.asMapping = some m → m.KeysApart

theorem KeysApart.apartKeys {n : Node} (h : n.KeysApart) : n.ApartKeys := by
  intro m hm
  simpa [hasKeysApart] using (all_of_asMapping h hm).1

theorem IsCanonical.apartKeys {n : Node} (h : n.IsCanonical) : n.ApartKeys := by
  intro m hm
  exact (isCanonical_mapping_iff.1 (h.asMapping hm)).1.apart

theorem IsCanonical.keysApart {n : Node} (h : n.IsCanonical) : n.KeysApart := by
  induction n using tree_induction with
  | scalar s => rfl
  | sequence items ih =>
    have hself : hasKeysApart (.sequence items) = true := rfl
    rw [KeysApart, all, hself, Bool.true_and, allItems_iff]
    exact fun n hn => ih n hn (isCanonical_sequence_iff.1 h n hn)
  | mapping m ih =>
    obtain ⟨hkeys, hvalues⟩ := isCanonical_mapping_iff.1 h
    rw [KeysApart, all, Bool.and_eq_true, allEntries_iff]
    exact ⟨decide_eq_true hkeys.apart, fun e he => ih e he (hvalues e he)⟩
  | tagged tag n ih =>
    have hself : hasKeysApart (.tagged tag n) = true := rfl
    rw [KeysApart, all, hself, Bool.true_and]
    exact ih (isCanonical_tagged_iff.1 h).1

/-- Keys are apart in the tree of a value that is read, unless a tag in it has several marks. -/
theorem keysApart_of_ofValue {v : Value} {n : Node} (h : ofValue v = .ok n) (hwf : v.WellFormed)
    (htags : v.PlainlyTagged) : n.KeysApart := by
  have hback : ofValue v.bareTags = .ok n := by rw [ofValue_bareTags, h]
  exact IsCanonical.keysApart ⟨v.bareTags, toValue?_of_ofValue h hwf htags, hback⟩

end Node

section Entries

variable {m : Mapping} {es : List (Value × Value)} {key : String}

theorem Node.EntriesOf.of_toEntries? (hm : m.KeysApart) (h : toEntries? m [] = some es) :
    EntriesOf es m := by
  have hvalues : ∀ f ∈ m, ∃ e : Value × Value, f.1.toValue = e.1 ∧ f.2.toValue? = some e.2 := by
    intro f hf
    cases hv : f.2.toValue? with
    | none =>
      rw [toEntries?_eq_none_iff.2 ⟨f, hf, hv⟩] at h
      cases h
    | some v => exact ⟨(f.1.toValue, v), rfl, rfl⟩
  obtain ⟨es', hes⟩ := exists_forall₂ hvalues
  have hall : toEntries? m [] = some es' :=
    toEntries?_eq_some hes
      (by simpa using (pairwise_same_iff (hes.imp fun _ _ hef => hef.1)).2 hm)
  rw [h] at hall
  cases hall
  exact hes

theorem Node.EntriesOf.exists_mem (h : EntriesOf es m) {c : Node} (hc : m.get? key = some c) :
    ∃ k : Scalar, k.text = key ∧ ∃ v, (k.toValue, v) ∈ es ∧ c.toValue? = some v := by
  induction h with
  | nil => cases hc
  | @cons e f es m hef _ ih =>
    obtain ⟨k, n⟩ := f
    rw [Mapping.get?_cons] at hc
    split at hc
    · rename_i hk
      cases hc
      exact ⟨k, hk, e.2, by rw [hef.1]; exact List.mem_cons_self, hef.2⟩
    · obtain ⟨k, hk, v, hmem, hv⟩ := ih hc
      exact ⟨k, hk, v, List.mem_cons_of_mem _ hmem, hv⟩

theorem Node.ApartKeys.keptByText {n : Node} (h : n.ApartKeys) : n.KeptByText := by
  intro m es hm hes htexts key c hc
  obtain ⟨k, hk, v, hmem, hv⟩ := (EntriesOf.of_toEntries? (h m hm) hes).exists_mem hc
  obtain ⟨s, hs⟩ := htexts k.toValue (List.mem_map_of_mem hmem)
  have hkey : s = key := (text_of_toValue hs).symm.trans hk
  exact ⟨k.toValue, v, hmem, hkey ▸ hs, hv⟩

/-! ## Fields that were read -/

section Fields

variable {ρ : Type} {field : ρ → String → Value → Option (Decoding ρ)} {r r' : ρ}
  {seen seen' : List String}

theorem texts_of_readFields (h : EntriesOf es m)
    (hread : readFields field es r seen = .ok (r', seen')) :
    ∀ k ∈ m.map Prod.fst, k.toValue.untagged = .string k.text := by
  refine List.forall_mem_map.2 (forall_mem_of_forall₂ h fun e he f hef => ?_)
  obtain ⟨s, hs⟩ := readFields_texts hread e.1 (List.mem_map_of_mem he)
  rw [← hef.1] at hs
  rw [hs, text_of_toValue hs]

/-- The name of a field that is known stands once at most in what was read. -/
theorem count_le_one_of_readFields (hknown : ∀ r x, field r key x ≠ none) (h : EntriesOf es m)
    (hread : readFields field es r seen = .ok (r', seen')) :
    (key ∈ seen → key ∉ m.keys) ∧ m.keys.count key ≤ 1 := by
  induction h generalizing r seen with
  | nil => simp
  | @cons e f es m hef _ ih =>
    obtain ⟨k, n⟩ := f
    obtain ⟨name, hname, hcases⟩ := readFields_cons hread
    have hk : k.text = name := text_of_toValue (hef.1 ▸ hname)
    rw [Mapping.keys_cons, List.count_cons, List.mem_cons, not_or]
    rcases hcases with ⟨hnone, hrest⟩ | ⟨r₁, -, hseen, hrest⟩
    · have hne : k.text ≠ key := by
        rintro rfl
        exact hknown r e.2 (hk ▸ hnone)
      rw [if_neg (by simpa using hne)]
      exact ⟨fun hmem => ⟨Ne.symm hne, (ih hrest).1 hmem⟩, (ih hrest).2⟩
    · by_cases hkey : k.text = key
      · have hmem : key ∈ name :: seen := by rw [← hkey, hk]; exact List.mem_cons_self
        rw [List.count_eq_zero.2 ((ih hrest).1 hmem), if_pos (by simpa using hkey)]
        exact ⟨fun hmem => absurd (hkey ▸ hmem) (hk ▸ hseen), Nat.le_refl 1⟩
      · rw [if_neg (by simpa using hkey)]
        exact ⟨fun hmem => ⟨Ne.symm hkey, (ih hrest).1 (List.mem_cons_of_mem _ hmem)⟩, (ih hrest).2⟩

theorem mem_keys_of_readFields (h : EntriesOf es m)
    (hread : readFields field es r seen = .ok (r', seen')) (hmem : key ∈ seen') :
    key ∈ seen ∨ key ∈ m.keys := by
  induction h generalizing r seen with
  | nil =>
    rw [readFields] at hread
    cases hread
    exact .inl hmem
  | @cons e f es m hef _ ih =>
    obtain ⟨k, n⟩ := f
    obtain ⟨name, hname, hcases⟩ := readFields_cons hread
    have hk : k.text = name := text_of_toValue (hef.1 ▸ hname)
    rw [Mapping.keys_cons, List.mem_cons]
    rcases hcases with ⟨-, hrest⟩ | ⟨r₁, -, -, hrest⟩
    · exact (ih hrest).imp_right .inr
    · rcases ih hrest with hseen | hkeys
      · rcases List.mem_cons.1 hseen with rfl | hseen
        · exact .inr (.inl hk.symm)
        · exact .inl hseen
      · exact .inr (.inr hkeys)

end Fields
end Entries

/-! ## Merged keys -/

theorem eq_string_of_same_string {v : Value} {s : String} (h : v.same (.string s) = true) :
    v = .string s := by
  cases v <;> simp [Value.same] at h
  rw [h]

theorem Mapping.KeysApart.merged {m entries : Mapping} (hm : m.KeysApart)
    (hd : entries.keys.Nodup) (htexts : ∀ k ∈ entries.map Prod.fst, k = .string k.text)
    (table : StrategyTable) (path : String) : (mergeEntries table path entries m).1.KeysApart := by
  rw [Mapping.KeysApart, map_fst_mergeEntries hd]
  have hnew : CanonicalKeys (entries.map Prod.fst) :=
    canonicalKeys_of_texts htexts (Mapping.keys_eq_map entries ▸ hd)
  refine List.pairwise_append.2 ⟨hm, hnew.apart.sublist List.filter_sublist, fun k hk b hb => ?_⟩
  obtain ⟨hb, habsent⟩ := List.mem_filter.1 hb
  refine Bool.eq_false_iff.2 fun hsame => of_decide_eq_true habsent ?_
  have hvalue : k.toValue = .string b.text := by
    rw [htexts b hb] at hsame
    exact eq_string_of_same_string hsame
  have htext : k.text = b.text := text_of_toValue (by rw [hvalue]; rfl)
  rw [← htext, Mapping.keys_eq_map]
  exact List.mem_map_of_mem hk

/-- A mapping with text keys that is reconciled with one whose keys are apart has keys apart. -/
theorem Node.ApartKeys.reconciled {entries : Mapping} (hd : entries.keys.Nodup)
    (htexts : ∀ k ∈ entries.map Prod.fst, k = .string k.text) {existing : Option Node}
    (he : ∀ e, existing = some e → e.ApartKeys) (table : StrategyTable) (path : String) :
    (reconcile (.mapping entries) existing path table).1.ApartKeys := by
  have hself : (Node.mapping entries).ApartKeys := by
    intro m hm
    cases hm
    exact (canonicalKeys_of_texts htexts (Mapping.keys_eq_map entries ▸ hd)).apart
  cases existing with
  | none => exact hself
  | some e =>
    by_cases hmerge : table.select path = .merge ∧ e.kind = .mapping
    · obtain ⟨old, ho⟩ := kind_eq_mapping_iff.1 hmerge.2
      intro m hm
      rw [reconcile, asMapping_mergeNode hmerge.1 ho] at hm
      cases hm
      exact (he e rfl old ho).merged hd htexts table path
    · rw [reconcile, mergeNode_of_not_merged hmerge]
      exact hself

end SharedConfig
