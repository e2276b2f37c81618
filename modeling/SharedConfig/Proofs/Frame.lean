import SharedConfig.Proofs.Edit

/-!
# SharedConfig.Proofs.Frame

What an edit under one key of a mapping leaves alone: all entries with other keys, in their order
(`OnlyUnder`).  Every edit at a path is one under the first key of the path.

* `editAt_onlyUnder`, `setScalar_onlyUnder`, `removeKey_onlyUnder`, `pruneEmpty_onlyUnder`.
* `at?_editAbove_apart`: an edit under the last key of a path leaves alone all that is neither above
  nor below that key.
* `getScalar_setScalar`, `setScalar_of_getScalar`: a text that was written is read back, and is not
  written again.
-/

namespace SharedConfig
namespace Node

def entriesExcept (key : String) (n : Node) : Mapping :=
  (n.asMapping.getD []).filter fun e => decide (e.1.text ≠ key)

theorem get?_filter_ne (m : Mapping) {key other : String} (h : other ≠ key) :
    Mapping.get? (m.filter fun e => decide (e.1.text ≠ key)) other = m.get? other := by
  induction m with
  | nil => rfl
  | cons e m ih =>
    obtain ⟨k, v⟩ := e
    by_cases hk : k.text = key
    · have hko : k.text ≠ other := fun ho => h (ho.symm.trans hk)
      rw [List.filter_cons_of_neg (by simpa using hk), ih, Mapping.get?_cons, if_neg hko]
    · rw [List.filter_cons_of_pos (by simpa using hk), Mapping.get?_cons, Mapping.get?_cons, ih]

theorem child?_eq_get?_entriesExcept (n : Node) {key other : String} (h : other ≠ key) :
    n.child? other = (n.entriesExcept key).get? other := by
  unfold child? entriesExcept
  cases n.asMapping with
  | none => rfl
  | some m => exact (get?_filter_ne m h).symm

/-- A change under one key: all other entries are the same and in the same order, and no text comes
to stand twice. -/
structure OnlyUnder (key : String) (before after : Node) : Prop where
  entries : after.entriesExcept key = before.entriesExcept key
  distinct : before.DistinctKeys → after.DistinctKeys

namespace OnlyUnder

variable {key : String} {a b c : Node}

theorem refl (key : String) (a : Node) : OnlyUnder key a a := ⟨rfl, id⟩

theorem trans (h : OnlyUnder key a b) (h' : OnlyUnder key b c) : OnlyUnder key a c :=
  ⟨h'.entries.trans h.entries, h'.distinct ∘ h.distinct⟩

theorem child? (h : OnlyUnder key a b) {other : String} (hne : other ≠ key) :
    b.child? other = a.child? other := by
  rw [child?_eq_get?_entriesExcept b hne, h.entries, ← child?_eq_get?_entriesExcept a hne]

theorem at? (h : OnlyUnder key a b) {other : String} (hne : other ≠ key) (rest : List String) :
    b.at? (other :: rest) = a.at? (other :: rest) := by
  rw [at?_cons, at?_cons, h.child? hne]

end OnlyUnder

theorem entriesExcept_setCore (n : Node) (m : Mapping) (key : String) :
    (n.setCore (.mapping m)).entriesExcept key = m.filter fun e => decide (e.1.text ≠ key) := by
  simp [entriesExcept, asMapping]

theorem filter_insert (m : Mapping) (key : Scalar) (v : Node) :
    (m.insert key v).filter (fun e => decide (e.1.text ≠ key.text)) =
      m.filter fun e => decide (e.1.text ≠ key.text) := by
  induction m with
  | nil => simp [Mapping.insert]
  | cons e m ih =>
    obtain ⟨k, w⟩ := e
    by_cases hk : k.text = key.text
    · simp [Mapping.insert, hk]
    · rw [Mapping.insert, if_neg hk, List.filter_cons_of_pos (by simpa using hk),
        List.filter_cons_of_pos (by simpa using hk), ih]

theorem filter_erase (m : Mapping) (key : String) :
    (m.erase key).filter (fun e => decide (e.1.text ≠ key)) =
      m.filter fun e => decide (e.1.text ≠ key) := by
  induction m with
  | nil => rfl
  | cons e m ih =>
    obtain ⟨k, w⟩ := e
    by_cases hk : k.text = key
    · rw [Mapping.erase, if_pos hk, List.filter_cons_of_neg (by simpa using hk)]
    · rw [Mapping.erase, if_neg hk, List.filter_cons_of_pos (by simpa using hk),
        List.filter_cons_of_pos (by simpa using hk), ih]

theorem insert_onlyUnder {n : Node} {m : Mapping} (h : n.asMapping = some m) (key : Scalar)
    (v : Node) : OnlyUnder key.text n (n.setCore (.mapping (m.insert key v))) := by
  constructor
  · rw [entriesExcept_setCore, filter_insert, entriesExcept, h]; rfl
  · intro hd m' hm'
    rw [asMapping_setCore] at hm'
    cases hm'
    exact Mapping.nodup_keys_insert (hd m h) key v

theorem erase_onlyUnder {n : Node} {m : Mapping} (h : n.asMapping = some m) (key : String) :
    OnlyUnder key n (n.setCore (.mapping (m.erase key))) := by
  constructor
  · rw [entriesExcept_setCore, filter_erase, entriesExcept, h]; rfl
  · intro hd m' hm'
    rw [asMapping_setCore] at hm'
    cases hm'
    exact Mapping.nodup_keys_erase (hd m h) key

/-! ## Edits -/

section Edit

variable {β : Type}

theorem writeKey_of_asMapping {n : Node} {m : Mapping} (h : n.asMapping = some m)
    (key value : String) :
    writeKey key value n =
      if (m.get? key).bind asText = some value then (n, false)
      else (n.setCore (.mapping (m.insert (.string key) (.string value))), true) := by
  simp only [writeKey, h]
  cases m.get? key <;> rfl

theorem writeKey_onlyUnder (key value : String) (n : Node) :
    OnlyUnder key n (writeKey key value n).1 := by
  cases hm : n.asMapping with
  | none => rw [writeKey, hm]; exact .refl key n
  | some m =>
    rw [writeKey_of_asMapping hm]
    split
    · exact .refl key n
    · exact insert_onlyUnder hm (.string key) _

theorem dropKey_onlyUnder (key : String) (n : Node) : OnlyUnder key n (dropKey key n).1 := by
  unfold dropKey
  cases hm : n.asMapping with
  | none => exact .refl key n
  | some m => exact erase_onlyUnder hm key

theorem editAt_onlyUnder (create : Bool) (edit : Node → Node × β) (s : PathStep) (rest : KeyPath)
    (n : Node) : OnlyUnder s.name n (editAt create edit (s :: rest) n).1 := by
  rcases editAt_cons_cases create edit s rest n with ⟨he, -⟩ | ⟨m, c, hm, -, he⟩
  · rw [he]; exact .refl _ n
  · rw [he]; exact insert_onlyUnder hm (.string s.name) _

theorem splitLeaf_cons (s : PathStep) (rest : KeyPath) :
    (∃ above key, KeyPath.splitLeaf (s :: rest) = some (⟨s.name, .mapping⟩ :: above, key)) ∨
      KeyPath.splitLeaf (s :: rest) = some ([], s.name) := by
  cases rest with
  | nil => exact .inr rfl
  | cons t rest =>
    obtain ⟨leaf, hl⟩ : ∃ leaf, (s :: t :: rest).getLast? = some leaf :=
      ⟨_, List.getLast?_eq_some_getLast (List.cons_ne_nil _ _)⟩
    refine .inl ⟨(t :: rest).dropLast.map fun u => ⟨u.name, .mapping⟩, leaf.name, ?_⟩
    rw [KeyPath.splitLeaf, hl]
    rfl

/-- An edit of the mapping above the end of a path, under its last key, is one under its first key.
-/
theorem editAbove_onlyUnder (create : Bool) {edit : String → Node → Node × β}
    (hedit : ∀ key n, OnlyUnder key n (edit key n).1) {s : PathStep} {rest above : KeyPath}
    {key : String} (h : KeyPath.splitLeaf (s :: rest) = some (above, key)) (n : Node) :
    OnlyUnder s.name n (editAt create (edit key) above n).1 := by
  rcases splitLeaf_cons s rest with ⟨a, k, ha⟩ | ha
  · rw [h] at ha
    cases ha
    exact editAt_onlyUnder create _ ⟨s.name, .mapping⟩ _ n
  · rw [h] at ha
    cases ha
    exact hedit s.name n

/-- An edit under one key of the mapping above leaves the other keys there alone. -/
theorem at?_editAbove (create : Bool) {edit : Node → Node × β} {key other : String}
    (hedit : ∀ n, OnlyUnder key n (edit n).1) (hne : other ≠ key) (keys rest : List String)
    (n : Node) :
    (editAt create edit (KeyPath.of keys .mapping) n).1.at? (keys ++ other :: rest) =
      n.at? (keys ++ other :: rest) := by
  have h := @at?_editAt β create edit (other :: rest) (by simp)
    (fun x => (hedit x).at? hne rest) (KeyPath.of keys .mapping) n
  rwa [KeyPath.names_of] at h

/-- It leaves alone all that is neither above nor below that key. -/
theorem at?_editAbove_apart (create : Bool) {edit : Node → Node × β} {key : String}
    (hedit : ∀ n, OnlyUnder key n (edit n).1) {above keys : List String}
    (hpath : ¬ above ++ [key] <+: keys) (hkeys : ¬ keys <+: above ++ [key]) (n : Node) :
    (editAt create edit (KeyPath.of above .mapping) n).1.at? keys = n.at? keys := by
  by_cases h : above <+: keys
  · obtain ⟨below, rfl⟩ := h
    cases below with
    | nil => exact absurd (by simp) hkeys
    | cons other rest =>
      have hne : other ≠ key := fun he => hpath ⟨rest, by simp [he]⟩
      exact at?_editAbove create hedit hne above rest n
  · refine at?_editAt_apart ?_ ?_ n
    · rwa [KeyPath.names_of]
    · rw [KeyPath.names_of]
      exact fun habove => hkeys (habove.trans (List.prefix_append above [key]))

theorem setScalar_of (keys : List String) (key value : String) (n : Node) :
    n.setScalar (KeyPath.of (keys ++ [key]) .scalar) value =
      ((editAt true (writeKey key value) (KeyPath.of keys .mapping) n).1,
        (editAt true (writeKey key value) (KeyPath.of keys .mapping) n).2.getD false) := by
  simp only [setScalar, KeyPath.splitLeaf_of]

theorem removeKey_of (keys : List String) (key : String) (kind : NodeKind) (n : Node) :
    n.removeKey (KeyPath.of (keys ++ [key]) kind) =
      ((editAt false (dropKey key) (KeyPath.of keys .mapping) n).1,
        (editAt false (dropKey key) (KeyPath.of keys .mapping) n).2.getD false) := by
  simp only [removeKey, KeyPath.splitLeaf_of]

theorem getScalar_setScalar {keys : List String} {key value : String} {n : Node}
    (h : (n.setScalar (KeyPath.of (keys ++ [key]) .scalar) value).2 = true) :
    (n.setScalar (KeyPath.of (keys ++ [key]) .scalar) value).1.getScalar
      (KeyPath.of (keys ++ [key]) .scalar) = some value := by
  rw [setScalar_of] at h ⊢
  obtain ⟨n', answer, he⟩ : ∃ n' answer,
      editAt true (writeKey key value) (KeyPath.of keys .mapping) n = (n', answer) := ⟨_, _, rfl⟩
  rw [he] at h ⊢
  cases answer with
  | none => cases h
  | some written =>
    obtain ⟨x, hx, hbx, -⟩ := editAt_some he
    replace h : written = true := h
    rw [KeyPath.names_of] at hx
    rw [getScalar_of (by simp), at?_append, hx, Option.bind_some, at?_cons]
    cases hm : x.asMapping with
    | none =>
      rw [h, writeKey, hm] at hbx
      cases hbx
    | some m =>
      rw [writeKey_of_asMapping hm] at hbx ⊢
      split
      · rename_i hsame
        rw [if_pos hsame, h] at hbx
        cases hbx
      · rw [child?_setCore_insert]
        rfl

theorem setScalar_of_getScalar {keys : List String} {key value : String} {n : Node}
    (h : n.getScalar (KeyPath.of (keys ++ [key]) .scalar) = some value) :
    n.setScalar (KeyPath.of (keys ++ [key]) .scalar) value = (n, false) := by
  rw [getScalar_of (by simp), at?_append] at h
  obtain ⟨v, hv, ht⟩ := Option.bind_eq_some_iff.1 h
  obtain ⟨x, hx, hv⟩ := Option.bind_eq_some_iff.1 hv
  rw [at?_singleton] at hv
  cases hm : x.asMapping with
  | none => simp [Node.child?, hm] at hv
  | some m =>
    rw [child?_of_asMapping hm] at hv
    have hwrite : writeKey key value x = (x, false) := by
      rw [writeKey_of_asMapping hm, hv, Option.bind_some, if_pos ht]
    have hfound : locate (KeyPath.of keys .mapping) n = some x := by
      cases keys with
      | nil => exact hx
      | cons k rest =>
        exact (locate_of_eq_some_iff (List.cons_ne_nil k rest)).2
          ⟨hx, kind_eq_mapping_iff.2 ⟨m, hm⟩⟩
    rw [setScalar_of, editAt_of_fixed hfound hwrite]
    rfl

theorem setScalar_onlyUnder (s : PathStep) (rest : KeyPath) (value : String) (n : Node) :
    OnlyUnder s.name n (n.setScalar (s :: rest) value).1 := by
  unfold setScalar
  cases h : KeyPath.splitLeaf (s :: rest) with
  | none => exact .refl _ n
  | some a => exact editAbove_onlyUnder true (fun key => writeKey_onlyUnder key value) h n

theorem removeKey_onlyUnder (s : PathStep) (rest : KeyPath) (n : Node) :
    OnlyUnder s.name n (n.removeKey (s :: rest)).1 := by
  unfold removeKey
  cases h : KeyPath.splitLeaf (s :: rest) with
  | none => exact .refl _ n
  | some a => exact editAbove_onlyUnder false dropKey_onlyUnder h n

theorem pruneFrom_onlyUnder {key : String} {steps : List PathStep}
    (h : ∀ s, steps.getLast? = some s → s.name = key) (n : Node) :
    OnlyUnder key n (pruneFrom steps n).1 := by
  induction steps generalizing n with
  | nil => exact .refl key n
  | cons leaf above ih =>
    rw [pruneFrom]
    dsimp only
    split
    · have habove : ∀ s, above.getLast? = some s → s.name = key := fun s hs =>
        h s (by rw [List.getLast?_cons, hs]; rfl)
      obtain ⟨first, rest, hpath⟩ : ∃ first rest, (leaf :: above).reverse = first :: rest := by
        cases hr : (leaf :: above).reverse with
        | nil => simp at hr
        | cons first rest => exact ⟨first, rest, rfl⟩
      have hfirst : first.name = key := by
        refine h first ?_
        rw [← List.head?_reverse, hpath]; rfl
      rw [hpath]
      exact (hfirst ▸ removeKey_onlyUnder first rest n).trans (ih habove _)
    · exact .refl key n

theorem pruneEmpty_onlyUnder (s : PathStep) (rest : KeyPath) (n : Node) :
    OnlyUnder s.name n (n.pruneEmpty (s :: rest)).1 := by
  refine pruneFrom_onlyUnder (fun t ht => ?_) n
  rw [List.getLast?_reverse] at ht
  cases ht
  rfl

end Edit

end Node
end SharedConfig
