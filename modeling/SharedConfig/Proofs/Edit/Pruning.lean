import SharedConfig.Proofs.Edit.Twice

/-!
# SharedConfig.Proofs.Edit.Pruning

What a pruning drops: the empty mapping at the end of a path, and with it each mapping above that it
was all of.

One step is the drop of a key that an empty mapping is under (`EmptyDropped`).  It leaves the mapping
above it, be it empty now or not, so the next step starts from a path that is there; and where no text
stands twice among the keys, nothing comes to light under the key.

* `pruneEmpty_concat`: a pruning, step by step from the end of its path.
* `pruneEmpty_eq_true_iff`: when anything is dropped.
* `emptyDropped_of_removeKey`: one step.
* `pruneEmpty_keepsTexts`, `at?_pruneEmpty`: a whole pruning.
* `pruning_drops_emptiness`: the laws of prunings.
-/

namespace SharedConfig

theorem KeyPath.eq_of_mappings {p : KeyPath} (h : ∀ s ∈ p, s.kind = .mapping) :
    p = of p.names .mapping := by
  induction p with
  | nil => rfl
  | cons s rest ih =>
    obtain ⟨hs, hrest⟩ := List.forall_mem_cons.1 h
    rw [names, List.map_cons, of_cons, ← names, ← ih hrest, ← hs]

namespace Node

/-! ## Keys that stand once -/

def hasDistinctKeys : Node → Bool
  | .mapping m => decide (Mapping.keys m).Nodup
  | _ => true

/-- No mapping that keys lead to has two keys of one text. -/
def DistinctWithin (n : Node) : Prop := ∀ keys x, n.at? keys = some x → x.DistinctKeys

theorem distinctWithin_of_all {n : Node} (h : n.all hasDistinctKeys = true) : n.DistinctWithin := by
  intro keys x hx m hm
  simpa [hasDistinctKeys] using (all_of_asMapping (all_of_at? h hx) hm).1

theorem distinctWithin_iff {n : Node} : n.DistinctWithin ↔
    n.DistinctKeys ∧ ∀ key c, n.child? key = some c → c.DistinctWithin := by
  constructor
  · refine fun h => ⟨h [] n rfl, fun key c hc keys x hx => h (key :: keys) x ?_⟩
    rw [at?_cons, hc]
    exact hx
  · rintro ⟨hself, hbelow⟩ keys x hx
    cases keys with
    | nil =>
      cases hx
      exact hself
    | cons key keys =>
      obtain ⟨c, hc, hx⟩ := Option.bind_eq_some_iff.1 ((at?_cons _ _ n).symm.trans hx)
      exact hbelow key c hc keys x hx

theorem distinctWithin_mapping {n : Node} {m : Mapping} (hm : n.asMapping = some m)
    (hkeys : m.keys.Nodup) (hbelow : ∀ key c, m.get? key = some c → c.DistinctWithin) :
    n.DistinctWithin := by
  refine distinctWithin_iff.2 ⟨fun m' hm' => ?_, fun key c hc => hbelow key c ?_⟩
  · cases hm.symm.trans hm'
    exact hkeys
  · rwa [child?_of_asMapping hm] at hc

theorem DistinctWithin.dropKey {n : Node} (h : n.DistinctWithin) (key : String) :
    (dropKey key n).1.DistinctWithin := by
  rw [Node.dropKey]
  cases hm : n.asMapping with
  | none => exact h
  | some m =>
    obtain ⟨hself, hbelow⟩ := distinctWithin_iff.1 h
    refine distinctWithin_mapping (asMapping_setCore n _)
      (Mapping.nodup_keys_erase (hself m hm) key) fun other c hc => hbelow other c ?_
    rw [child?_of_asMapping hm]
    by_cases hne : key = other
    · subst hne
      rw [Mapping.get?_erase_of_count (List.nodup_iff_count.1 (hself m hm) key)] at hc
      cases hc
    · rwa [Mapping.get?_erase_of_ne m hne] at hc

/-- An edit that lets no key stand twice where it is made lets none do so in the tree. -/
theorem DistinctWithin.editAt {β : Type} {edit : Node → Node × β}
    (hedit : ∀ x : Node, x.DistinctWithin → (edit x).1.DistinctWithin) (path : KeyPath) {n : Node}
    (h : n.DistinctWithin) : (editAt false edit path n).1.DistinctWithin := by
  induction path generalizing n with
  | nil => exact hedit n h
  | cons s rest ih =>
    rcases editAt_cons_cases false edit s rest n with ⟨he, -⟩ | ⟨m, c, hm, hc, he⟩
    · rw [he]
      exact h
    · obtain ⟨hself, hbelow⟩ := distinctWithin_iff.1 h
      have hget : m.get? s.name = some c := (editedChild_eq_some hc).elim (·.1) (nomatch ·.1)
      rw [he]
      refine distinctWithin_mapping (asMapping_setCore n _)
        (Mapping.nodup_keys_insert (hself m hm) _ _) fun key d hd => ?_
      rw [Mapping.get?_insert] at hd
      split at hd
      · cases hd
        exact ih (hbelow s.name c (by rwa [child?_of_asMapping hm]))
      · exact hbelow key d (by rwa [child?_of_asMapping hm])

theorem DistinctWithin.removeKey {n : Node} (h : n.DistinctWithin) (path : KeyPath) :
    (n.removeKey path).1.DistinctWithin := by
  unfold Node.removeKey
  cases path.splitLeaf with
  | none => exact h
  | some p => exact h.editAt (fun x hx => hx.dropKey p.2) p.1

/-! ## What is on the way -/

section Way

variable {n : Node}

theorem kind_of_at?_append {keys rest : List String} {x y : Node}
    (hx : n.at? (keys ++ rest) = some x) (hk : x.kind = .mapping) (hy : n.at? keys = some y) :
    y.kind = .mapping := by
  rw [at?_append, hy, Option.bind_some] at hx
  cases rest with
  | nil =>
    cases hx
    exact hk
  | cons key rest =>
    obtain ⟨c, hc, -⟩ := Option.bind_eq_some_iff.1 ((at?_cons _ _ y).symm.trans hx)
    exact kind_eq_mapping_iff.2 (exists_asMapping_of_child? hc)

theorem at?_append_of_empty {keys rest : List String} (h : n.at? keys = some (.mapping []))
    (hne : rest ≠ []) : n.at? (keys ++ rest) = none := by
  rw [at?_append, h, Option.bind_some, at?_of_childless (fun _ => rfl) hne]

theorem getScalar_of_mapping {q : KeyPath}
    (h : ∀ x, n.at? q.names = some x → x.kind = .mapping) : n.getScalar q = none := by
  unfold getScalar
  cases hl : locate q n with
  | none => rfl
  | some x =>
    refine asText_eq_none ?_
    rw [h x (at?_of_locate hl)]
    decide

theorem kind_dropKey (key : String) (n : Node) : (dropKey key n).1.kind = n.kind := by
  rw [dropKey]
  cases hm : n.asMapping with
  | none => rfl
  | some m =>
    rw [kind_eq_mapping_iff.2 ⟨m, hm⟩]
    exact kind_setCore n _

end Way

/-! ## One step -/

/-- The key at the end of a list was dropped, with the empty mapping that was under it. -/
structure EmptyDropped (above : List String) (key : String) (before after : Node) : Prop where
  was : before.at? (above ++ [key]) = some (.mapping [])
  gone : after.at? (above ++ [key]) = none
  parent : ∃ x, after.at? above = some x ∧ x.kind = .mapping
  others : ∀ keys, ¬ keys <+: above ++ [key] → after.at? keys = before.at? keys

section Step

variable {above : List String} {key : String} {root : Node}

/-- The mapping that a key is dropped from stays where it is. -/
theorem exists_above_of_removeKey
    (h : (root.removeKey (KeyPath.of (above ++ [key]) .mapping)).2 = true) :
    ∃ x, (root.removeKey (KeyPath.of (above ++ [key]) .mapping)).1.at? above = some x ∧
      x.kind = .mapping := by
  rw [removeKey_of] at h ⊢
  obtain ⟨after, answer, he⟩ : ∃ after answer,
      editAt false (dropKey key) (KeyPath.of above .mapping) root = (after, answer) := ⟨_, _, rfl⟩
  rw [he] at h ⊢
  cases answer with
  | none => cases h
  | some dropped =>
    obtain ⟨x, hx, rfl, -⟩ := editAt_some he
    rw [KeyPath.names_of] at hx
    replace h : (dropKey key x).2 = true := h
    rw [dropKey_answer] at h
    obtain ⟨c, hc⟩ := Option.isSome_iff_exists.1 h
    exact ⟨_, hx, (kind_dropKey key x).trans (kind_eq_mapping_iff.2 (exists_asMapping_of_child? hc))⟩

theorem emptyDropped_of_removeKey (hd : root.DistinctWithin)
    (h : root.at? (above ++ [key]) = some (.mapping [])) :
    EmptyDropped above key root (root.removeKey (KeyPath.of (above ++ [key]) .mapping)).1 := by
  have hanswer : (root.removeKey (KeyPath.of (above ++ [key]) .mapping)).2 = true := by
    rw [removeKey_answer, h]
    rfl
  have hgone := (entryDropped_of_removeKey hanswer).at?_eq_none fun x => hd above x
  refine ⟨h, hgone, exists_above_of_removeKey hanswer, fun keys hkeys => ?_⟩
  by_cases hbelow : above ++ [key] <+: keys
  · -- nothing was below the empty mapping, and nothing is where it was
    obtain ⟨rest, rfl⟩ := hbelow
    have hne : rest ≠ [] := fun hnil => hkeys (by simp [hnil])
    rw [at?_append_of_empty h hne, at?_append (above ++ [key]), hgone]
    rfl
  · rw [removeKey_of]
    exact at?_editAbove_apart false (dropKey_onlyUnder key) hbelow hkeys root

theorem EmptyDropped.getScalar_eq {before after : Node} (h : EmptyDropped above key before after)
    (q : KeyPath) : after.getScalar q = before.getScalar q := by
  by_cases hq : q.names <+: above ++ [key]
  · -- on the way there are mappings before, and mappings or nothing after
    obtain ⟨rest, hrest⟩ := hq
    have hwas : before.at? (q.names ++ rest) = some (.mapping []) := hrest ▸ h.was
    have hbefore : before.getScalar q = none :=
      getScalar_of_mapping fun x hx => kind_of_at?_append hwas rfl hx
    have hafter : after.getScalar q = none := by
      refine getScalar_of_mapping fun x hx => ?_
      rcases List.prefix_concat_iff.1 ⟨rest, hrest⟩ with heq | ⟨rest, rfl⟩
      · rw [heq, h.gone] at hx
        cases hx
      · obtain ⟨y, hy, hk⟩ := h.parent
        exact kind_of_at?_append hy hk hx
    rw [hbefore, hafter]
  · unfold getScalar
    rw [locate_congr (h.others q.names hq)]

theorem EmptyDropped.not_empty {before after : Node} (h : EmptyDropped above key before after)
    {keys : List String} (hkeys : keys <+: above) (hne : keys ≠ above) :
    after.at? keys ≠ some (.mapping []) := by
  intro hempty
  obtain ⟨rest, rfl⟩ := hkeys
  obtain ⟨x, hx, -⟩ := h.parent
  rw [at?_append_of_empty hempty fun hnil => hne (by simp [hnil])] at hx
  cases hx

end Step

/-! ## All steps -/

section Run

variable {keys above : List String} {key : String} {root : Node}

theorem any_isEmptyValue_iff :
    (root.locate (KeyPath.of (above ++ [key]) .mapping)).any isEmptyValue = true ↔
      root.at? (above ++ [key]) = some (.mapping []) := by
  constructor
  · intro h
    obtain ⟨x, hx, hempty⟩ := (Option.any_eq_true _ _).1 h
    obtain ⟨hat, hk⟩ := (locate_of_eq_some_iff (by simp)).1 hx
    by_cases hne : x = .mapping []
    · rw [hat, hne]
    · rw [isEmptyValue_eq_false hk hne] at hempty
      cases hempty
  · intro h
    have hfound : locate (KeyPath.of (above ++ [key]) .mapping) root = some (.mapping []) :=
      (locate_of_eq_some_iff (by simp)).2 ⟨h, rfl⟩
    rw [hfound]
    rfl

/-- A pruning goes on above an empty mapping that it has dropped, and ends at anything else. -/
theorem pruneEmpty_concat (above : List String) (key : String) (root : Node) :
    root.pruneEmpty (KeyPath.of (above ++ [key]) .mapping) =
      if root.at? (above ++ [key]) = some (.mapping []) then
        (((root.removeKey (KeyPath.of (above ++ [key]) .mapping)).1.pruneEmpty
          (KeyPath.of above .mapping)).1, true)
      else (root, false) := by
  by_cases h : root.at? (above ++ [key]) = some (.mapping [])
  · have hanswer : (root.removeKey (KeyPath.of (above ++ [key]) .mapping)).2 = true := by
      rw [removeKey_answer, h]
      rfl
    have hempty := any_isEmptyValue_iff.2 h
    rw [KeyPath.of_append_singleton] at hanswer hempty ⊢
    rw [if_pos h, pruneEmpty_append, if_pos hempty, hanswer, Bool.true_or]
  · have hempty := mt any_isEmptyValue_iff.1 h
    rw [KeyPath.of_append_singleton] at hempty ⊢
    rw [if_neg h, pruneEmpty_append, if_neg hempty]

theorem pruneEmpty_eq_true_iff :
    (root.pruneEmpty (KeyPath.of keys .mapping)).2 = true ↔
      keys ≠ [] ∧ root.at? keys = some (.mapping []) := by
  cases keys using List.reverseRecOn with
  | nil =>
    constructor
    · intro h
      cases h
    · exact fun h => absurd rfl h.1
  | append_singleton above key =>
    rw [pruneEmpty_concat]
    by_cases h : root.at? (above ++ [key]) = some (.mapping []) <;> simp [h]

/-- All that is found off the way is found as before, and so is every text. -/
structure KeepsTexts (keys : List String) (before after : Node) : Prop where
  others : ∀ q, ¬ q <+: keys → after.at? q = before.at? q
  texts : ∀ q : KeyPath, after.getScalar q = before.getScalar q

theorem pruneEmpty_keepsTexts (keys : List String) (hd : root.DistinctWithin) :
    KeepsTexts keys root (root.pruneEmpty (KeyPath.of keys .mapping)).1 := by
  induction keys using List.reverseRecOn generalizing root with
  | nil => exact ⟨fun _ _ => rfl, fun _ => rfl⟩
  | append_singleton above key ih =>
    rw [pruneEmpty_concat]
    split
    · rename_i h
      have hstep := emptyDropped_of_removeKey hd h
      have hrest := ih (hd.removeKey (KeyPath.of (above ++ [key]) .mapping))
      constructor
      · intro q hq
        have habove : ¬ q <+: above := fun h => hq (h.trans (List.prefix_append above [key]))
        rw [hrest.others q habove, hstep.others q hq]
      · intro q
        rw [hrest.texts q, hstep.getScalar_eq q]
    · exact ⟨fun _ _ => rfl, fun _ => rfl⟩

/-- Where something was dropped, no part of the way leads to an empty mapping, and its end to
nothing. -/
theorem at?_pruneEmpty (hd : root.DistinctWithin)
    (h : (root.pruneEmpty (KeyPath.of keys .mapping)).2 = true) :
    (root.pruneEmpty (KeyPath.of keys .mapping)).1.at? keys = none ∧
      ∀ p, p <+: keys → p ≠ [] →
        (root.pruneEmpty (KeyPath.of keys .mapping)).1.at? p ≠ some (.mapping []) := by
  induction keys using List.reverseRecOn generalizing root with
  | nil => cases h
  | append_singleton above key ih =>
    have hempty := (pruneEmpty_eq_true_iff.1 h).2
    have hstep := emptyDropped_of_removeKey hd hempty
    have hd' := hd.removeKey (KeyPath.of (above ++ [key]) .mapping)
    rw [pruneEmpty_concat, if_pos hempty]
    dsimp only
    generalize (root.removeKey (KeyPath.of (above ++ [key]) .mapping)).1 = next at hstep hd' ⊢
    have hgone : (next.pruneEmpty (KeyPath.of above .mapping)).1.at? (above ++ [key]) = none := by
      have hoff : ¬ above ++ [key] <+: above := fun h => absurd h.length_le (by simp)
      rw [(pruneEmpty_keepsTexts above hd').others _ hoff, hstep.gone]
    refine ⟨hgone, fun p hp hne => ?_⟩
    rcases List.prefix_concat_iff.1 hp with rfl | hp
    · rw [hgone]
      exact nofun
    · cases hmore : (next.pruneEmpty (KeyPath.of above .mapping)).2 with
      | true => exact (ih hd' hmore).2 p hp hne
      | false =>
        -- the pruning ends here, since the mapping above is not empty
        rw [pruneEmpty_unchanged hmore]
        by_cases hend : p = above
        · subst hend
          intro hlast
          rw [pruneEmpty_eq_true_iff.2 ⟨hne, hlast⟩] at hmore
          cases hmore
        · exact hstep.not_empty hp hend

theorem pruneEmpty_eq_true_iff_ne (hd : root.DistinctWithin) :
    (root.pruneEmpty (KeyPath.of keys .mapping)).2 = true ↔
      (root.pruneEmpty (KeyPath.of keys .mapping)).1 ≠ root := by
  constructor
  · intro h hsame
    have hnone := (at?_pruneEmpty hd h).1
    rw [hsame, (pruneEmpty_eq_true_iff.1 h).2] at hnone
    cases hnone
  · intro hne
    by_contra hfalse
    exact hne (pruneEmpty_unchanged (Bool.eq_false_iff.2 hfalse))

theorem pruneEmpty_again (hd : root.DistinctWithin) :
    ((root.pruneEmpty (KeyPath.of keys .mapping)).1.pruneEmpty (KeyPath.of keys .mapping)).2 =
      false := by
  cases h : (root.pruneEmpty (KeyPath.of keys .mapping)).2 with
  | false =>
    rw [pruneEmpty_unchanged h]
    exact h
  | true =>
    have hnone := (at?_pruneEmpty hd h).1
    rw [Bool.eq_false_iff]
    intro hagain
    rw [(pruneEmpty_eq_true_iff.1 hagain).2] at hnone
    cases hnone

end Run

/-! ## The laws -/

structure PrunesEmptiness (path : KeyPath) (root : Node) : Prop where
  others : ∀ q : KeyPath, ¬ q.names <+: path.names →
    locate q (root.pruneEmpty path).1 = locate q root
  texts : ∀ q : KeyPath, (root.pruneEmpty path).1.getScalar q = root.getScalar q
  answer : (root.pruneEmpty path).2 = true ↔ (root.pruneEmpty path).1 ≠ root
  gone : (root.pruneEmpty path).2 = true → locate path (root.pruneEmpty path).1 = none
  /-- No part of the path leads to an untagged empty mapping any more, so neither does the longest one
  that leads anywhere. -/
  left : (root.pruneEmpty path).2 = true → ∀ p : KeyPath, p <+: path → p ≠ [] →
    locate p (root.pruneEmpty path).1 ≠ some (.mapping [])
  again : ((root.pruneEmpty path).1.pruneEmpty path).2 = false

/-- A pruning along mappings drops empty ones and nothing else, and leaves none of them behind. -/
theorem pruning_drops_emptiness {path : KeyPath} (hpath : ∀ s ∈ path, s.kind = .mapping)
    {root : Node} (hroot : root.all hasDistinctKeys = true) : PrunesEmptiness path root := by
  have hd := distinctWithin_of_all hroot
  obtain ⟨keys, rfl⟩ : ∃ keys, path = KeyPath.of keys .mapping := ⟨_, KeyPath.eq_of_mappings hpath⟩
  have hkept := pruneEmpty_keepsTexts keys hd
  constructor
  case others =>
    intro q hq
    rw [KeyPath.names_of] at hq
    exact locate_congr (hkept.others q.names hq)
  case texts => exact hkept.texts
  case answer => exact pruneEmpty_eq_true_iff_ne hd
  case gone =>
    intro h
    rw [Option.eq_none_iff_forall_ne_some]
    intro x hfound
    have hat := at?_of_locate hfound
    rw [KeyPath.names_of, (at?_pruneEmpty hd h).1] at hat
    cases hat
  case left =>
    intro h p hp hne hfound
    have hprefix : p.names <+: keys := by
      rw [← KeyPath.names_of keys .mapping]
      exact hp.map PathStep.name
    have hnames : p.names ≠ [] := fun hnil => hne (List.map_eq_nil_iff.1 hnil)
    exact (at?_pruneEmpty hd h).2 p.names hprefix hnames (at?_of_locate hfound)
  case again => exact pruneEmpty_again hd

/-- The tagged mapping stays, though nothing is left in it, and so does the null beside the way. -/
theorem pruning_drops_emptiness_below_tag :
    let path := KeyPath.of ["cli", "features", "beta"] .mapping
    let root : Node := .mapping [
      (.string "cli", .tagged "Ext" (.mapping [
        (.string "features", .mapping [(.string "beta", .mapping [])])])),
      (.string "env", .scalar .null), (.string "log", .string "x")]
    let pruned : Node := .mapping [
      (.string "cli", .tagged "Ext" (.mapping [])), (.string "env", .scalar .null),
      (.string "log", .string "x")]
    (∀ s ∈ path, s.kind = .mapping) ∧ root.all hasDistinctKeys = true ∧
      root.pruneEmpty path = (pruned, true) ∧ pruned ≠ root ∧
      locate (.of ["env"] .scalar) pruned = locate (.of ["env"] .scalar) root ∧
      pruned.getScalar (.of ["log"] .scalar) = root.getScalar (.of ["log"] .scalar) ∧
      root.getScalar (.of ["log"] .scalar) = some "x" ∧
      locate path pruned = none ∧
      locate (.of ["cli"] .mapping) pruned = some (.tagged "Ext" (.mapping [])) ∧
      (pruned.pruneEmpty path).2 = false := by
  intro path root pruned
  have hpath : ∀ s ∈ path, s.kind = .mapping := by decide
  have hroot : root.all hasDistinctKeys = true := by decide
  have hpruned : root.pruneEmpty path = (pruned, true) := by decide
  have hlaws := pruning_drops_emptiness hpath hroot
  have hothers := hlaws.others (.of ["env"] .scalar) (by decide)
  have htexts := hlaws.texts (.of ["log"] .scalar)
  have hchanged := hlaws.answer.1 (by rw [hpruned])
  have hgone := hlaws.gone (by rw [hpruned])
  have hagain := hlaws.again
  rw [hpruned] at hothers htexts hchanged hgone hagain
  exact ⟨hpath, hroot, hpruned, hchanged, hothers, htexts, by decide, hgone, by decide, hagain⟩

end Node
end SharedConfig
