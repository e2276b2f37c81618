import SharedConfig.Mapping

/-!
# SharedConfig.Proofs.Mapping

Mappings as ordered dictionaries: what an insertion and a removal do to the keys, to their order and
to every other entry.

* `map_fst_insert`: a present key stays where it is, an absent one comes last.
* `get?_erase_of_count`, `get?_erase_of_ne`: where no text stands twice, a removal takes its entry alone.
* `insert_comm`: insertions at two keys commute if one of them is present.
* `insert_eq_map`, `erase_eq_filter`: both as one pass over the entries.
* `ofList_of_nodup`: insertions one after the other, where no text stands twice.
-/

namespace SharedConfig
namespace Mapping

@[simp] theorem keys_nil : keys [] = [] := rfl

@[simp] theorem keys_cons (k : Scalar) (v : Node) (m : Mapping) :
    keys ((k, v) :: m) = k.text :: keys m := rfl

@[simp] theorem keys_append (a b : Mapping) : keys (a ++ b) = keys a ++ keys b := by simp [keys]

theorem get?_cons (k : Scalar) (v : Node) (m : Mapping) (key : String) :
    get? ((k, v) :: m) key = if k.text = key then some v else get? m key := rfl

theorem get?_append (a b : Mapping) (key : String) :
    get? (a ++ b) key = (get? a key).or (get? b key) := by
  induction a with
  | nil => rfl
  | cons e a ih =>
    obtain ⟨k, v⟩ := e
    by_cases h : k.text = key
    · simp [get?_cons, h]
    · simp [get?_cons, h, ih]

theorem get?_eq_none_iff {m : Mapping} {key : String} : m.get? key = none ↔ key ∉ m.keys := by
  induction m with
  | nil => simp
  | cons e m ih =>
    obtain ⟨k, v⟩ := e
    by_cases h : k.text = key
    · simp [get?_cons, h]
    · simp [get?_cons, h, ih, Ne.symm h]

theorem mem_keys_of_get? {m : Mapping} {key : String} {v : Node} (h : m.get? key = some v) :
    key ∈ m.keys := by
  refine Classical.byContradiction fun hn => ?_
  rw [get?_eq_none_iff.2 hn] at h
  cases h

theorem exists_mem_of_get? {m : Mapping} {key : String} {v : Node} (h : m.get? key = some v) :
    ∃ e ∈ m, e.2 = v := by
  induction m with
  | nil => simp at h
  | cons e m ih =>
    obtain ⟨k, w⟩ := e
    rw [get?_cons] at h
    split at h
    · exact ⟨(k, w), List.mem_cons_self, Option.some.inj h⟩
    · obtain ⟨e, he, hv⟩ := ih h
      exact ⟨e, List.mem_cons_of_mem _ he, hv⟩

theorem get?_eq_find? (m : Mapping) (key : String) :
    m.get? key = (m.find? fun e => e.1.text = key).map Prod.snd := by
  induction m with
  | nil => rfl
  | cons e m ih =>
    obtain ⟨k, v⟩ := e
    by_cases h : k.text = key <;> simp [get?_cons, h, ih]

theorem find?_of_mem {m : Mapping} (hd : m.keys.Nodup) {e : Scalar × Node} (h : e ∈ m) :
    m.find? (fun x => x.1.text = e.1.text) = some e := by
  induction m with
  | nil => cases h
  | cons first m ih =>
    rw [keys, List.map_cons, List.nodup_cons] at hd
    rcases List.mem_cons.1 h with rfl | h
    · exact List.find?_cons_of_pos (decide_eq_true rfl)
    · have hne : first.1.text ≠ e.1.text := fun he => hd.1 (he ▸ List.mem_map_of_mem h)
      rw [List.find?_cons_of_neg (by simpa using hne)]
      exact ih hd.2 h

theorem get?_of_mem {m : Mapping} (hd : m.keys.Nodup) {k : Scalar} {v : Node}
    (h : (k, v) ∈ m) : m.get? k.text = some v := by
  have hfound : m.find? (fun e => e.1.text = k.text) = some (k, v) := find?_of_mem hd h
  rw [get?_eq_find?, hfound, Option.map_some]

/-! ## Insertion -/

/-- What an insertion does to the keys, their kinds and tags included. -/
theorem map_fst_insert (m : Mapping) (key : Scalar) (value : Node) :
    (m.insert key value).map Prod.fst =
      if key.text ∈ m.keys then m.map Prod.fst else m.map Prod.fst ++ [key] := by
  induction m with
  | nil => simp [insert]
  | cons e m ih =>
    obtain ⟨k, v⟩ := e
    by_cases h : k.text = key.text
    · simp [insert, h]
    · by_cases hm : key.text ∈ keys m <;> simp [insert, h, Ne.symm h, ih, hm]

theorem keys_eq_map (m : Mapping) : m.keys = (m.map Prod.fst).map Scalar.text := by
  simp [keys]

theorem keys_insert (m : Mapping) (key : Scalar) (value : Node) :
    (m.insert key value).keys = if key.text ∈ m.keys then m.keys else m.keys ++ [key.text] := by
  rw [keys_eq_map (m.insert key value), map_fst_insert]
  split <;> simp [keys_eq_map]

theorem nodup_keys_insert {m : Mapping} (h : m.keys.Nodup) (key : Scalar) (value : Node) :
    (m.insert key value).keys.Nodup := by
  rw [keys_insert]
  split
  · exact h
  · rename_i hn
    exact List.nodup_append.2 ⟨h, by simp, fun a ha b hb => by
      rw [List.mem_singleton.1 hb]
      exact fun he => hn (he ▸ ha)⟩

theorem get?_insert (m : Mapping) (key : Scalar) (value : Node) (other : String) :
    (m.insert key value).get? other = if key.text = other then some value else m.get? other := by
  split
  · rename_i h
    rw [← h, get?_insert_self]
  · rename_i h
    exact get?_insert_of_ne m key value h

theorem forall_mem_insert {P : Node → Prop} {m : Mapping} {key : Scalar} {value : Node}
    (hvalue : P value) (h : ∀ e ∈ m, P e.2) : ∀ e ∈ m.insert key value, P e.2 := by
  induction m with
  | nil => exact List.forall_mem_singleton.2 hvalue
  | cons e m ih =>
    obtain ⟨he, hm⟩ := List.forall_mem_cons.1 h
    rw [insert]
    split
    · exact List.forall_mem_cons.2 ⟨hvalue, hm⟩
    · exact List.forall_mem_cons.2 ⟨he, ih hm⟩

theorem insert_of_absent {m : Mapping} {key : Scalar} (h : key.text ∉ m.keys) (value : Node) :
    m.insert key value = m ++ [(key, value)] := by
  induction m with
  | nil => rfl
  | cons e m ih =>
    obtain ⟨k, v⟩ := e
    rw [keys_cons, List.mem_cons, not_or] at h
    rw [insert, if_neg (Ne.symm h.1), ih h.2, List.cons_append]

theorem insert_get? {m : Mapping} (key : Scalar) {v : Node} (h : m.get? key.text = some v) :
    m.insert key v = m := by
  induction m with
  | nil => simp at h
  | cons e m ih =>
    obtain ⟨k, w⟩ := e
    by_cases hk : k.text = key.text
    · simp [get?_cons, hk] at h
      simp [insert, hk, h]
    · simp [get?_cons, hk] at h
      simp [insert, hk, ih h]

theorem insert_insert (m : Mapping) (key : Scalar) (a b : Node) :
    (m.insert key a).insert key b = m.insert key b := by
  induction m with
  | nil => simp [insert]
  | cons e m ih =>
    obtain ⟨k, v⟩ := e
    by_cases h : k.text = key.text
    · simp [insert, h]
    · simp [insert, h, ih]

/-- Insertions at two keys commute, unless both are new and come last. -/
theorem insert_comm {m : Mapping} {key other : Scalar} (hne : key.text ≠ other.text)
    (hkey : key.text ∈ m.keys) (a b : Node) :
    (m.insert key a).insert other b = (m.insert other b).insert key a := by
  induction m with
  | nil => simp at hkey
  | cons e m ih =>
    obtain ⟨k, v⟩ := e
    by_cases hk : k.text = key.text
    · simp [insert, hk, hne]
    · by_cases ho : k.text = other.text
      · simp [insert, ho, Ne.symm hne]
      · have hrest : key.text ∈ keys m := by simpa [Ne.symm hk] using hkey
        simp [insert, hk, ho, ih hrest]

/-- Where no text stands twice, writing a present key is one pass over the entries. -/
theorem insert_eq_map {m : Mapping} (hd : m.keys.Nodup) (key : Scalar) (hk : key.text ∈ m.keys)
    (value : Node) :
    m.insert key value = m.map fun e => if e.1.text = key.text then (e.1, value) else e := by
  induction m with
  | nil => simp at hk
  | cons e m ih =>
    obtain ⟨k, v⟩ := e
    rw [keys_cons, List.nodup_cons] at hd
    by_cases h : k.text = key.text
    · have hrest : (m.map fun e => if e.1.text = key.text then (e.1, value) else e) = m.map id :=
        List.map_congr_left fun e he =>
          if_neg fun heq => hd.1 (by rw [h, ← heq]; exact List.mem_map_of_mem he)
      simp [insert, h, hrest]
    · have hk' : key.text ∈ keys m := by simpa [Ne.symm h] using hk
      simp [insert, h, ih hd.2 hk']

theorem foldl_insert_of_nodup {done rest : Mapping} (h : (done ++ rest).keys.Nodup) :
    rest.foldl (fun m e => m.insert e.1 e.2) done = done ++ rest := by
  induction rest generalizing done with
  | nil => rw [List.foldl_nil, List.append_nil]
  | cons e rest ih =>
    obtain ⟨k, v⟩ := e
    have hnew : k.text ∉ done.keys := by
      rw [keys_append, keys_cons] at h
      exact fun hk => (List.nodup_append.1 h).2.2 k.text hk k.text List.mem_cons_self rfl
    rw [List.foldl_cons, insert_of_absent hnew, List.append_cons done (k, v) rest]
    rw [List.append_cons] at h
    exact ih h

theorem ofList_of_nodup {m : Mapping} (h : m.keys.Nodup) : ofList m = m :=
  foldl_insert_of_nodup h

/-! ## Removal -/

theorem erase_sublist (m : Mapping) (key : String) : (m.erase key).Sublist m := by
  induction m with
  | nil => exact .slnil
  | cons e m ih =>
    obtain ⟨k, v⟩ := e
    by_cases h : k.text = key
    · simp [erase, h]
    · simpa [erase, h] using ih

theorem nodup_keys_erase {m : Mapping} (h : m.keys.Nodup) (key : String) :
    (m.erase key).keys.Nodup :=
  h.sublist ((erase_sublist m key).map _)

theorem get?_erase_of_ne (m : Mapping) {key other : String} (h : key ≠ other) :
    (m.erase key).get? other = m.get? other := by
  induction m with
  | nil => rfl
  | cons e m ih =>
    obtain ⟨k, v⟩ := e
    by_cases hk : k.text = key
    · simp [erase, hk, get?_cons, h]
    · simp [erase, hk, get?_cons, ih]

theorem erase_eq_filter {m : Mapping} (hd : m.keys.Nodup) (key : String) :
    m.erase key = m.filter fun e => decide (e.1.text ≠ key) := by
  induction m with
  | nil => rfl
  | cons e m ih =>
    obtain ⟨k, v⟩ := e
    rw [keys_cons, List.nodup_cons] at hd
    by_cases h : k.text = key
    · have hrest : (m.filter fun e => decide (e.1.text ≠ key)) = m := by
        refine List.filter_eq_self.2 fun e he => ?_
        exact decide_eq_true fun heq => hd.1 (by rw [h, ← heq]; exact List.mem_map_of_mem he)
      simpa [erase, h] using hrest.symm
    · simp [erase, h, ih hd.2]

theorem erase_of_absent {m : Mapping} {key : String} (h : key ∉ m.keys) : m.erase key = m := by
  induction m with
  | nil => rfl
  | cons e m ih =>
    obtain ⟨k, v⟩ := e
    rw [keys_cons, List.mem_cons, not_or] at h
    rw [erase, if_neg (Ne.symm h.1), ih h.2]

/-- Where a text stands once at most, a removal leaves nothing under it. -/
theorem get?_erase_of_count {m : Mapping} {key : String} (h : m.keys.count key ≤ 1) :
    (m.erase key).get? key = none := by
  induction m with
  | nil => rfl
  | cons e m ih =>
    obtain ⟨k, v⟩ := e
    rw [keys_cons, List.count_cons] at h
    by_cases hk : k.text = key
    · have hrest : (keys m).count key = 0 := by
        rw [if_pos (by simp [hk])] at h
        omega
      rw [erase, if_pos hk, get?_eq_none_iff]
      exact List.count_eq_zero.1 hrest
    · rw [if_neg (by simp [hk])] at h
      rw [erase, if_neg hk, get?_cons, if_neg hk, ih h]

end Mapping
end SharedConfig
