import Mathlib.Data.List.Basic
import SharedConfig.Proofs.Frame

/-!
# SharedConfig.Proofs.Entries

One pass over the entries of a mapping, under the tags around it.

* `mapEntries_mapEntries`: one pass after the other is one pass.
* `child?_mapEntries`: what is under a key after a pass.
* `editAt_singleton_eq`, `dropKey_eq`: where no text stands twice, edits at a key are such passes.
-/

namespace SharedConfig

namespace Node

def mapEntries (f : String → Node → Option Node) (n : Node) : Node :=
  match n.asMapping with
  | some m => n.setCore (.mapping (m.filterMap fun e => (f e.1.text e.2).map fun v => (e.1, v)))
  | none => n

section

variable {f g : String → Node → Option Node} {n : Node}

theorem mapEntries_of_asMapping {m : Mapping} (h : n.asMapping = some m) :
    n.mapEntries f =
      n.setCore (.mapping (m.filterMap fun e => (f e.1.text e.2).map fun v => (e.1, v))) := by
  simp [mapEntries, h]

theorem mapEntries_of_none (h : n.asMapping = none) : n.mapEntries f = n := by
  simp [mapEntries, h]

theorem mapEntries_mapEntries :
    (n.mapEntries f).mapEntries g = n.mapEntries fun key v => (f key v).bind (g key) := by
  cases hm : n.asMapping with
  | none => rw [mapEntries_of_none hm, mapEntries_of_none hm, mapEntries_of_none hm]
  | some m =>
    rw [mapEntries_of_asMapping hm, mapEntries_of_asMapping hm,
      mapEntries_of_asMapping (asMapping_setCore _ _), setCore_setCore, setCore_mapping,
      List.filterMap_filterMap]
    congr 3
    funext e
    cases f e.1.text e.2 <;> simp

theorem get?_filterMap (m : Mapping) (hd : m.keys.Nodup) (key : String) :
    Mapping.get? (m.filterMap fun e => (f e.1.text e.2).map fun v => (e.1, v)) key =
      (m.get? key).bind (f key) := by
  induction m with
  | nil => rfl
  | cons e m ih =>
    obtain ⟨k, v⟩ := e
    rw [Mapping.keys_cons, List.nodup_cons] at hd
    rw [Mapping.get?_cons]
    cases hv : f k.text v with
    | none =>
      rw [List.filterMap_cons_none (by simp [hv]), ih hd.2]
      split
      · rename_i hk
        rw [← hk, Mapping.get?_eq_none_iff.2 hd.1, Option.bind_some, hv]
        rfl
      · rfl
    | some w =>
      rw [List.filterMap_cons_some (b := (k, w)) (by simp [hv]), Mapping.get?_cons, ih hd.2]
      split
      · rename_i hk
        rw [← hk, Option.bind_some, hv]
      · rfl

theorem child?_mapEntries (hd : n.DistinctKeys) (key : String) :
    (n.mapEntries f).child? key = (n.child? key).bind (f key) := by
  cases hm : n.asMapping with
  | none => simp [mapEntries_of_none hm, child?, hm]
  | some m =>
    rw [mapEntries_of_asMapping hm, child?_setCore, child?_of_asMapping hm,
      get?_filterMap m (hd m hm)]

theorem keys_filterMap_sublist (m : Mapping) :
    (Mapping.keys (m.filterMap fun e => (f e.1.text e.2).map fun v => (e.1, v))).Sublist m.keys := by
  induction m with
  | nil => exact .slnil
  | cons e m ih =>
    obtain ⟨k, v⟩ := e
    cases hv : f k.text v with
    | none =>
      rw [List.filterMap_cons_none (by simp [hv])]
      exact ih.cons _
    | some w =>
      rw [List.filterMap_cons_some (b := (k, w)) (by simp [hv])]
      exact ih.cons_cons _

theorem DistinctKeys.mapEntries (hd : n.DistinctKeys) : (n.mapEntries f).DistinctKeys := by
  cases hm : n.asMapping with
  | none => rw [mapEntries_of_none hm]; exact hd
  | some m =>
    intro m' hm'
    rw [mapEntries_of_asMapping hm, asMapping_setCore] at hm'
    cases hm'
    exact (hd m hm).sublist (keys_filterMap_sublist m)

/-- Two passes do the same if they do so to every value that is under a key. -/
theorem mapEntries_congr (hd : n.DistinctKeys)
    (h : ∀ key v, n.child? key = some v → f key v = g key v) : n.mapEntries f = n.mapEntries g := by
  cases hm : n.asMapping with
  | none => rw [mapEntries_of_none hm, mapEntries_of_none hm]
  | some m =>
    rw [mapEntries_of_asMapping hm, mapEntries_of_asMapping hm]
    congr 2
    refine List.filterMap_congr fun e he => ?_
    rw [h e.1.text e.2 (by rw [child?_of_asMapping hm, Mapping.get?_of_mem (hd m hm) he])]

theorem mapEntries_some (n : Node) : n.mapEntries (fun _ => some) = n := by
  cases hm : n.asMapping with
  | none => exact mapEntries_of_none hm
  | some m =>
    rw [mapEntries_of_asMapping hm]
    simpa using setCore_asMapping hm

/-! ## Edits -/

variable {β : Type}

theorem editAt_singleton_eq (hd : n.DistinctKeys) (edit : Node → Node × β) (s : PathStep) :
    (editAt false edit [s] n).1 =
      n.mapEntries fun key v =>
        some (if key = s.name ∧ v.kind = s.kind then (edit v).1 else v) := by
  rcases editAt_cons_cases false edit s [] n with ⟨he, hl⟩ | ⟨m, c, hm, hc, he⟩
  · rw [he]
    refine (mapEntries_some n).symm.trans (mapEntries_congr hd fun key v hv => ?_)
    rw [if_neg]
    rintro ⟨rfl, hk⟩
    have hfound : locate [s] n = some v := locate_cons_eq_some_iff.2 ⟨v, hv, hk, rfl⟩
    rw [hl] at hfound
    cases hfound
  · rw [he, mapEntries_of_asMapping hm]
    dsimp only
    rcases editedChild_eq_some hc with ⟨hget, hk⟩ | ⟨hf, -⟩
    · rw [Mapping.insert_eq_map (hd m hm) (.string s.name) (Mapping.mem_keys_of_get? hget)]
      congr 2
      rw [← List.filterMap_eq_map]
      refine List.filterMap_congr fun e hmem => ?_
      have hval := Mapping.get?_of_mem (hd m hm) hmem
      by_cases hkey : e.1.text = s.name
      · rw [hkey, hget] at hval
        cases hval
        simp [hkey, hk]
      · simp [hkey]
    · cases hf

theorem dropKey_eq (hd : n.DistinctKeys) (key : String) :
    (dropKey key n).1 = n.mapEntries fun k v => if k = key then none else some v := by
  cases hm : n.asMapping with
  | none => rw [mapEntries_of_none hm, dropKey, hm]
  | some m =>
    rw [mapEntries_of_asMapping hm]
    simp only [dropKey, hm, Mapping.erase_eq_filter (hd m hm)]
    congr 2
    rw [← List.filterMap_eq_filter]
    refine List.filterMap_congr fun e _ => ?_
    by_cases hk : e.1.text = key <;> simp [hk, Option.guard]

end

end Node
end SharedConfig
