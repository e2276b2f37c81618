import SharedConfig.Proofs.Edit.Twice
import SharedConfig.Proofs.Run.Survival

/-!
# SharedConfig.Proofs.Run.Features

A feature that is set and dropped.

* `Action.deleteFeature_of_removeKey`: dropping a feature as edits of the document.
* `new_feature_is_dropped`: setting a feature that was not there, and dropping it.
-/

namespace SharedConfig

open Node

namespace Action

variable {path : KeyPath} {plugin key value : String} {s s' : Session} {changed : Bool}

/-- Writing a text where none was changes the document, unless it is an error. -/
theorem setScalar_of_absent (hnone : s.root.getScalar path = none)
    (h : Action.setScalar path value s = (.ok changed, s')) :
    changed = true ∧ (s.root.setScalar path value).2 = true := by
  simp only [Action.setScalar] at h
  split at h
  · rename_i hwritten
    cases h
    exact ⟨rfl, hwritten⟩
  · rename_i hwritten
    rw [setScalar_unchanged (Bool.eq_false_iff.2 hwritten), hnone, if_neg (by simp)] at h
    cases h

theorem deleteFeature_of_removeKey {made : Node}
    (h : s.root.removeKey (featurePath plugin key) = (made, true)) :
    ∃ u, Action.deleteFeature plugin key s = (.ok true, u) ∧
      u.root = (made.pruneEmpty (KeyPath.of ["clientOptions", "features", plugin] .mapping)).1 := by
  have hremoved : Action.removeKey (featurePath plugin key) s = (.ok true, s.edited made true) := by
    rw [Action.removeKey, h]
  have hpruned : Action.prune (KeyPath.of ["clientOptions", "features", plugin] .mapping)
      (s.edited made true) = (.ok _, _) := rfl
  exact ⟨_, (bind_of_ok hremoved _).trans (bind_of_ok hpruned fun _ => pure true), rfl⟩

/-- A feature that was set where there was none is dropped without a trace, in the same session or
in a later one. -/
theorem deleteFeature_of_setFeature (hroot : s.root.kind = .mapping)
    (hfull : IsFull ["clientOptions", "features", plugin] s.root)
    (habsent : s.root.at? ["clientOptions", "features", plugin, key] = none)
    (h : Action.setFeature plugin key value s = (.ok changed, s')) :
    changed = true ∧ ∀ t : Session, t.root = s'.root →
      ∃ u, Action.deleteFeature plugin key t = (.ok true, u) ∧ u.root = s.root := by
  have hpath : featurePath plugin key =
      KeyPath.of (["clientOptions", "features", plugin] ++ [key]) .scalar := rfl
  have hnone : s.root.getScalar (featurePath plugin key) = none := by
    rw [featurePath, getScalar_of (List.cons_ne_nil _ _), habsent]
    rfl
  obtain ⟨rfl, hwritten⟩ := setScalar_of_absent hnone h
  obtain ⟨made, hremoved, hpruned⟩ := exists_removeKey_of_setScalar hroot hfull habsent hwritten
  refine ⟨rfl, fun t ht => ?_⟩
  rw [← hpath, ← root_of_setScalar h, ← ht] at hremoved
  obtain ⟨u, hdelete, hu⟩ := deleteFeature_of_removeKey hremoved
  exact ⟨u, hdelete, hu.trans hpruned⟩

end Action

namespace Mutation

variable {m : Mutation} {table : StrategyTable} {root after : Node} {answer : Outcome}

theorem applyTo_of_run {s : Session} (hcheck : m.check = .ok ())
    (h : m.run (.new root table) = (.ok answer, s)) :
    m.applyTo table root = .ok (answer, s.root) := by
  rw [applyTo, hcheck]
  dsimp only
  rw [h]

theorem check_of_applyTo (h : m.applyTo table root = .ok (answer, after)) : m.check = .ok () := by
  cases hcheck : m.check with
  | ok u => rfl
  | error e =>
    rw [applyTo_of_check_error hcheck] at h
    cases h

end Mutation

/-- A feature that was set where there was none is dropped, and the document is the one from before,
unless something on the way to it was empty. -/
theorem new_feature_is_dropped {plugin key value : String} {table : StrategyTable}
    {root after : Node} {answer : Outcome} (hroot : root.kind = .mapping)
    (hfull : IsFull ["clientOptions", "features", plugin] root)
    (habsent : root.at? ["clientOptions", "features", plugin, key] = none)
    (h : (Mutation.setFeature plugin key value).applyTo table root = .ok (answer, after)) :
    answer = .changed true ∧
      (Mutation.deleteFeature plugin key).applyTo table after = .ok (.changed true, root) := by
  -- both operations check the plugin and the key, in the same way
  have hcheck : (Mutation.deleteFeature plugin key).check = .ok () :=
    @Mutation.check_of_applyTo (.setFeature plugin key value) _ _ _ _ h
  obtain ⟨s, hrun, rfl⟩ := Mutation.applyTo_eq_ok h
  obtain ⟨changed, hset, rfl⟩ := Action.map_eq_ok.1 hrun
  obtain ⟨rfl, hdropped⟩ := Action.deleteFeature_of_setFeature hroot hfull habsent hset
  obtain ⟨u, hdelete, hu⟩ := hdropped (.new s.root table) rfl
  have hrun : (Mutation.deleteFeature plugin key).run (.new s.root table) = (.ok (.changed true), u) :=
    Action.map_eq_ok.2 ⟨true, hdelete, rfl⟩
  have happly := Mutation.applyTo_of_run hcheck hrun
  rw [hu] at happly
  exact ⟨rfl, happly⟩

/-- Below tagged options in which two keys have one text, the mappings of the features and of the
plugin are made for a feature, and dropped with it. -/
theorem new_feature_is_dropped_below_tag :
    let kept : Mapping := [(⟨"1", .int, none⟩, .string "x"), (.string "1", .sequence []),
      (.string "env", .scalar .null)]
    let holding := fun options : Mapping => Node.mapping [
      (.string "contexts", .sequence [.mapping [(.string "name", .string "a")]]),
      (.string "clientOptions", .tagged "t" (.mapping options)), (.string "z", .mapping [])]
    let root := holding kept
    let after := holding (kept ++ [(.string "features",
      .mapping [(.string "p", .mapping [(.string "k", .string "v")])])])
    root.kind = .mapping ∧ IsFull ["clientOptions", "features", "p"] root ∧
      root.at? ["clientOptions", "features", "p", "k"] = none ∧
      (Mutation.setFeature "p" "k" "v").applyTo .empty root = .ok (.changed true, after) ∧
      (Mutation.deleteFeature "p" "k").applyTo .empty after = .ok (.changed true, root) := by
  intro kept holding root after
  have hroot : root.kind = .mapping := rfl
  have hfull : IsFull ["clientOptions", "features", "p"] root := by decide
  have habsent : root.at? ["clientOptions", "features", "p", "k"] = none := by decide
  have hset : (Mutation.setFeature "p" "k" "v").applyTo .empty root = .ok (.changed true, after) := by
    decide
  exact ⟨hroot, hfull, habsent, hset, (new_feature_is_dropped hroot hfull habsent hset).2⟩

end SharedConfig
